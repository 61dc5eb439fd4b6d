import Stencil.File.Path
import Stencil.Proofs.Text.Search
import Stencil.Proofs.Text.Split

/-!
# Segments of paths

Output files are placed by paths: a template's path below the common directory, joined to the output
directory, with another extension. Whether a file ends up below the output directory is a question
about segments, the names and ways upwards that a path is made of, and not about its text.

`segments_ofPieces` reads a path that was put together of names: it has just these segments.
`segments_join` says that joined to a directory, such a path adds its segments to those of the
directory, so it leads to a place below. `isName_of_named_mem` goes the other way: a name among the
segments of a path is the name of a file, without slashes and neither empty nor a full stop or two.

The last section is about extensions. `stem_cases` says what is left of a name without its extension,
and `withExtension_cases` what another extension makes of it: a name again, unless the name is two
full stops and an extension (`stem_eq_current_iff`). Of that only the way to the directory above is
left.

**What it does not establish.** Paths are compared by their texts and segments; links between
directories, and which files there are, are no part of it.
-/

namespace Stencil

namespace Path

open Text (splitOnChar)

/-! ## Pieces and segments -/

/-- A slash separates what stands on its two sides. -/
theorem pieces_append_slash (a b : String) : pieces (a ++ "/" ++ b) = pieces a ++ pieces b := by
  have hlist : (a ++ "/" ++ b).toList = a.toList ++ '/' :: b.toList := by simp
  rw [pieces, hlist, Text.splitOnChar_append_sep, List.map_append]
  rfl

/-- Behind a slash at the end stands an empty piece. -/
theorem pieces_slash (a : String) : pieces (a ++ "/") = pieces a ++ [""] := by
  have hpieces := pieces_append_slash a ""
  rwa [String.append_empty] at hpieces

/-- A path has a piece, be it an empty one. -/
theorem pieces_ne_nil (path : String) : pieces path ≠ [] := by
  simp [pieces, Text.splitOnChar_ne_nil]

/-- A text without slashes is its only piece. -/
theorem pieces_of_not_mem {path : String} (h : '/' ∉ path.toList) : pieces path = [path] := by
  rw [pieces, Text.splitOnChar_of_not_mem h, List.map_singleton, String.ofList_toList]

/-- Texts without slashes are read back from what they are put together to. -/
theorem pieces_ofPieces {names : List String} (hne : names ≠ [])
    (hnames : ∀ name ∈ names, '/' ∉ name.toList) : pieces (ofPieces names) = names := by
  rw [ofPieces]
  induction names with
  | nil => exact absurd rfl hne
  | cons name names ih =>
    obtain ⟨hname, hrest⟩ := List.forall_mem_cons.1 hnames
    cases names with
    | nil => exact pieces_of_not_mem hname
    | cons next names =>
      rw [Text.joinWith, pieces_append_slash, pieces_of_not_mem hname,
        ih (List.cons_ne_nil _ _) hrest]
      rfl

/-- Behind a slash, only the names and the ways upwards count. -/
theorem segments_append_slash (a b : String) :
    segments (a ++ "/" ++ b) = segments (a ++ "/") ++ (pieces b).filterMap inner? := by
  have habsolute : isAbsolute (a ++ "/" ++ b) = isAbsolute (a ++ "/") := by
    rw [isAbsolute, isAbsolute]
    cases ha : a.toList <;> simp [ha]
  obtain ⟨first, more, hfirst⟩ := List.exists_cons_of_ne_nil (pieces_ne_nil a)
  rw [segments, segments, habsolute, pieces_append_slash, pieces_slash, List.filterMap_append,
    List.filterMap_append, hfirst]
  simp [inner?]

/-- A slash at the end adds no segment. -/
theorem segments_slash {a : String} (h : a ≠ "") : segments (a ++ "/") = segments a := by
  have habsolute : isAbsolute (a ++ "/") = isAbsolute a := by
    rw [isAbsolute, isAbsolute]
    cases ha : a.toList with
    | nil => exact absurd (String.toList_eq_nil_iff.1 ha) h
    | cons c cs => simp [ha]
  obtain ⟨first, more, hfirst⟩ := List.exists_cons_of_ne_nil (pieces_ne_nil a)
  rw [segments, segments, habsolute, pieces_slash, hfirst, List.filterMap_append]
  simp [inner?]

/-! ## Names -/

/-- A text that can stand between two slashes and counts there. -/
structure Counts (piece : String) : Prop where
  ne_empty : piece ≠ ""
  ne_current : piece ≠ "."
  slashless : '/' ∉ piece.toList

/-- A name that a file can have. -/
structure IsName (name : String) : Prop extends Counts name where
  ne_parent : name ≠ ".."

/-- What a text that counts stands for. -/
def segmentOf (piece : String) : Segment := if piece = ".." then .parent else .named piece

/-- A piece that counts is read as the segment it stands for. -/
theorem Counts.inner? {piece : String} (h : Counts piece) : inner? piece = some (segmentOf piece) := by
  rw [Path.inner?, segmentOf, if_neg (by simp [h.ne_empty, h.ne_current])]
  split <;> rfl

theorem IsName.segmentOf {name : String} (h : IsName name) : segmentOf name = .named name :=
  if_neg h.ne_parent

/-- The names in a path are names of files. -/
theorem isName_of_named_mem {path name : String} (h : Segment.named name ∈ segments path) :
    IsName name := by
  -- The first segment of a path may be its root or the current directory; names are among the others.
  have hmem : Segment.named name ∈ (pieces path).filterMap Path.inner? := by
    rw [segments] at h
    rcases List.mem_append.1 h with h | h
    · split at h
      · simp at h
      · split at h <;> simp at h
    · exact h
  obtain ⟨piece, hpiece, hinner⟩ := List.mem_filterMap.1 hmem
  obtain ⟨cs, hcs, rfl⟩ := List.mem_map.1 hpiece
  rw [Path.inner?] at hinner
  split at hinner
  · cases hinner
  · next hcounts =>
    split at hinner
    · cases hinner
    · next hparent =>
      obtain rfl := Segment.named.inj (Option.some.inj hinner)
      simp only [Bool.or_eq_true, decide_eq_true_eq, not_or] at hcounts
      refine ⟨⟨hcounts.1, hcounts.2, ?_⟩, hparent⟩
      rw [String.toList_ofList]
      exact Text.not_mem_of_mem_splitOnChar hcs

section

variable {ps : List String}

/-- All of the pieces are read if all of them count. -/
theorem filterMap_inner? (h : ∀ p ∈ ps, Counts p) : ps.filterMap Path.inner? = ps.map Path.segmentOf := by
  rw [← List.filterMap_eq_map]
  exact List.filterMap_congr fun p hp => (h p hp).inner?

/-- A path that starts with a piece that counts does not start at the root. -/
theorem isAbsolute_ofPieces (hne : ps ≠ []) (h : ∀ p ∈ ps, Counts p) : isAbsolute (ofPieces ps) = false := by
  obtain ⟨first, more, rfl⟩ := List.exists_cons_of_ne_nil hne
  have hpieces := pieces_ofPieces hne fun p hp => (h p hp).slashless
  rw [isAbsolute, decide_eq_false_iff_not]
  intro hslash
  obtain ⟨cs, hcs⟩ := List.head?_eq_some_iff.1 hslash
  rw [pieces, hcs, Text.splitOnChar, if_pos rfl] at hpieces
  exact (h first List.mem_cons_self).ne_empty (List.cons.inj hpieces).1.symm

/-- A path put together of texts that count has the segments that they stand for. -/
theorem segments_ofPieces (hne : ps ≠ []) (h : ∀ p ∈ ps, Counts p) :
    segments (ofPieces ps) = ps.map Path.segmentOf := by
  have hcurrent : ps.head? ≠ some "." := by
    obtain ⟨first, more, rfl⟩ := List.exists_cons_of_ne_nil hne
    simpa using (h first List.mem_cons_self).ne_current
  rw [segments, isAbsolute_ofPieces hne h, pieces_ofPieces hne fun p hp => (h p hp).slashless,
    filterMap_inner? h, if_neg Bool.false_ne_true, if_neg hcurrent, List.nil_append]

/-- Joined to a directory, a path leads on from there. -/
theorem segments_join (directory : String) (hne : ps ≠ []) (h : ∀ p ∈ ps, Counts p) :
    segments (join directory (ofPieces ps)) = segments directory ++ segments (ofPieces ps) := by
  have hbehind : segments (ofPieces ps) = (pieces (ofPieces ps)).filterMap Path.inner? := by
    rw [segments_ofPieces hne h, pieces_ofPieces hne fun p hp => (h p hp).slashless, filterMap_inner? h]
  -- The directory may be empty, end with a slash, or neither; only in the last case a slash is put
  -- between.
  rw [join, isAbsolute_ofPieces hne h, if_neg Bool.false_ne_true]
  split
  · next hlast =>
    obtain rfl := String.toList_eq_nil_iff.1 (List.getLast?_eq_none_iff.1 hlast)
    rfl
  · next hlast =>
    obtain ⟨front, hfront⟩ := List.getLast?_eq_some_iff.1 hlast
    obtain rfl : directory = String.ofList front ++ "/" := by
      rw [← String.ofList_toList (s := directory), hfront, String.ofList_append]
    rw [segments_append_slash, hbehind]
  · next hlast =>
    have hdirectory : directory ≠ "" := by
      rintro rfl
      simp at hlast
    rw [segments_append_slash, segments_slash hdirectory, hbehind]

end

/-! ## Extensions -/

/-- The extension is behind the last full stop, unless that is in front of all. -/
theorem stem_ofList (front : List Char) {ext : List Char} (hext : '.' ∉ ext) :
    stem (String.ofList (front ++ '.' :: ext)) =
      if front = [] then String.ofList (front ++ '.' :: ext) else String.ofList front := by
  have hafter : Text.afterLast '.' (front ++ '.' :: ext) = ext := by
    have hrun : ∀ c ∈ ext.reverse, (c != '.') = true := fun c hc =>
      bne_iff_ne.2 fun heq => hext (heq ▸ List.mem_reverse.1 hc)
    rw [Text.afterLast, List.reverse_append, List.reverse_cons, List.append_assoc,
      List.takeWhile_append_of_pos hrun]
    simp
  have hlength : (front ++ '.' :: ext).length - ext.length - 1 = front.length := by
    rw [List.length_append, List.length_cons]
    omega
  rw [stem, String.toList_ofList]
  simp only [hafter, hlength, List.take_left, List.isEmpty_iff]

/-- A file name is what is in front of its extension, if it has one. -/
theorem stem_cases (name : String) : stem name = name ∨ ∃ front ext, front ≠ [] ∧ '.' ∉ ext ∧
    name = String.ofList (front ++ '.' :: ext) ∧ stem name = String.ofList front := by
  by_cases hstop : '.' ∈ name.toList
  · obtain ⟨ext, front, hreverse, hext⟩ := List.eq_append_cons_of_mem (List.mem_reverse.2 hstop)
    have hext' : '.' ∉ ext.reverse := fun hmem => hext (List.mem_reverse.1 hmem)
    obtain rfl : name = String.ofList (front.reverse ++ '.' :: ext.reverse) := by
      rw [← String.ofList_toList (s := name), ← List.reverse_reverse name.toList, hreverse]
      simp
    rw [stem_ofList _ hext']
    by_cases hfront : front.reverse = []
    · exact .inl (if_pos hfront)
    · exact .inr ⟨front.reverse, ext.reverse, hfront, hext', rfl, if_neg hfront⟩
  · left
    have hrun : ∀ c ∈ name.toList.reverse, (c != '.') = true := fun c hc =>
      bne_iff_ne.2 fun heq => hstop (heq ▸ List.mem_reverse.1 hc)
    have hafter : Text.afterLast '.' name.toList = name.toList := by
      have htake : (name.toList.reverse ++ []).takeWhile (· != '.') = name.toList.reverse :=
        Text.takeWhile_run hrun nofun
      rw [List.append_nil] at htake
      rw [Text.afterLast, htake, List.reverse_reverse]
    simp [stem, hafter]

/-- A name that is two full stops and an extension. -/
def IsExtendedParent (name : String) : Prop :=
  ∃ ext : List Char, '.' ∉ ext ∧ name = String.ofList ('.' :: '.' :: ext)

/-- What is left of a name without its extension is a full stop for the names that are two full stops and
an extension. -/
theorem stem_eq_current_iff {name : String} (h : IsName name) : stem name = "." ↔ IsExtendedParent name := by
  constructor
  · intro hstem
    rcases stem_cases name with hself | ⟨front, ext, -, hext, rfl, hfront⟩
    · exact absurd (hself.symm.trans hstem) h.ne_current
    · obtain rfl : front = ['.'] := String.ofList_injective (hfront.symm.trans hstem)
      exact ⟨ext, hext, rfl⟩
  · rintro ⟨ext, hext, rfl⟩
    exact stem_ofList ['.'] hext

/-- Without its extension a name has no slash either. -/
theorem slashless_stem {name : String} (h : '/' ∉ name.toList) : '/' ∉ (stem name).toList := by
  rcases stem_cases name with hself | ⟨front, ext, -, -, rfl, hfront⟩
  · rwa [hself]
  · rw [hfront, String.toList_ofList]
    rw [String.toList_ofList] at h
    exact fun hmem => h (List.mem_append_left _ hmem)

/-- The name of a file with another extension: a name, or the way to the directory above. -/
theorem withExtension_cases {name ext : String} (h : IsName name) (hext : '/' ∉ ext.toList)
    (hlength : 1 < ext.length) :
    (stem name = "." ∧ withExtension ext name = "..") ∨
      (stem name ≠ "." ∧ withExtension ext name = stem name ++ "." ++ ext ∧
        IsName (stem name ++ "." ++ ext)) := by
  rw [withExtension]
  by_cases hstem : stem name = "."
  · exact .inl ⟨hstem, if_pos hstem⟩
  · have hlong : 2 < (stem name ++ "." ++ ext).length := by
      rw [String.length_append, String.length_append, show ".".length = 1 from rfl]
      omega
    have hother (short : String) (hshort : short.length ≤ 2) : stem name ++ "." ++ ext ≠ short := by
      intro heq
      rw [heq] at hlong
      omega
    refine .inr ⟨hstem, if_neg hstem, ⟨hother _ (by decide), hother _ (by decide), ?_⟩,
      hother _ (by decide)⟩
    have hname := slashless_stem h.slashless
    simp [hname, hext]

end Path

end Stencil
