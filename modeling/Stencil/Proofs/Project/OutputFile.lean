import Stencil.Project.Run
import Stencil.Proofs.File.Path
import Mathlib.Data.List.Nodup

/-!
# Where results end up

The directory that all templates have in common is the longest one: its segments start with those of
every directory that all templates lie in (`prefix_commonDirectory_iff`). A template belongs at the
names of its path that are below this directory, the last of them with the extension of output files.

**The law** (`ofTemplates_places`): for all lists of paths with a file name, there is an output file
for every template if and only if no two templates belong at the same place, and then each template
has its output file where it belongs, with one exception: the output file of a template whose name is
two full stops and an extension is the directory above (`exists_ofTemplates_parent`). If two templates
belong at the same place, nothing is written at all.

Two templates have the same output file if and only if they belong at the same place
(`ofTemplate_eq_iff`), the exception included, so the check for output files that are given away twice
is one for places (`assign_eq_ok_iff`, by induction over the templates that are left). `Parts` takes a
path apart once, into what all have in common, what is below, and the name.

**What it does not establish.** A path without a file name, such as one that ends in two full stops,
is not looked at.
-/

namespace Stencil

namespace OutputFile

open Stencil.Path (Segment IsName IsExtendedParent Counts segments stem withExtension)

/-! ## The common directory -/

/-- The common front starts with all that both lists start with, and with nothing else. -/
theorem prefix_commonFront_iff {front a b : List Segment} :
    front <+: commonFront a b ↔ front <+: a ∧ front <+: b := by
  induction front generalizing a b with
  | nil => simp
  | cons s front ih =>
    cases a with
    | nil => simp [commonFront]
    | cons c a =>
      cases b with
      | nil => simp [commonFront]
      | cons d b =>
        rw [commonFront]
        by_cases hcd : c = d
        · subst hcd
          simp only [if_pos, List.cons_prefix_cons, ih]
          tauto
        · rw [if_neg hcd, List.cons_prefix_cons, List.cons_prefix_cons]
          refine iff_of_false (by simp) ?_
          rintro ⟨⟨rfl, -⟩, rfl, -⟩
          exact hcd rfl

/-- The common directory starts with every directory that all files lie in, and is one of these. -/
theorem prefix_commonDirectory_iff {paths : List String} (hne : paths ≠ []) {front : List Segment} :
    front <+: commonDirectory paths ↔ ∀ path ∈ paths, front <+: directorySegments path := by
  have hfold (first : List Segment) (more : List (List Segment)) :
      front <+: more.foldl commonFront first ↔ front <+: first ∧ ∀ segments ∈ more, front <+: segments := by
    induction more generalizing first with
    | nil => simp
    | cons next more ih => rw [List.foldl_cons, ih, prefix_commonFront_iff, List.forall_mem_cons, and_assoc]
  obtain ⟨first, more, rfl⟩ := List.exists_cons_of_ne_nil hne
  rw [commonDirectory, hfold, List.forall_mem_map, List.forall_mem_cons]

/-! ## Templates -/

/-- The path ends in the name of a file. -/
def HasName (path : String) : Prop := ∃ name, (segments path).getLast? = some (.named name)

/-- The names of the path where the result of a template belongs, given how many segments all templates
have in common. -/
def place (common : Nat) (path : String) : List String :=
  let kept := names ((segments path).drop common)
  kept.dropLast ++ (kept.getLast?.map fun name => stem name ++ "." ++ extension).toList

theorem names_append (a b : List Segment) : names (a ++ b) = names a ++ names b := List.filterMap_append

/-- The names among the segments. -/
theorem mem_names {s : List Segment} {name : String} : name ∈ names s ↔ .named name ∈ s := by
  rw [names, List.mem_filterMap]
  constructor
  · rintro ⟨segment, hmem, hname⟩
    cases segment <;> simp_all
  · exact fun h => ⟨_, h, rfl⟩

/-- The parts of the path of a template: what all templates have in common, what is below, its name. -/
structure Parts (common : List Segment) (path : String) (below : List Segment) (name : String) : Prop where
  eq : segments path = common ++ below ++ [.named name]
  isName : IsName name
  isName_below : ∀ n ∈ names below, IsName n

/-- A path with a name is the common directory, what is below, and the name. -/
theorem exists_parts {common : List Segment} {path : String} (h : HasName path)
    (hcommon : common <+: directorySegments path) : ∃ below name, Parts common path below name := by
  obtain ⟨name, hname⟩ := h
  obtain ⟨below, hbelow⟩ := hcommon
  have heq : segments path = common ++ below ++ [.named name] := by
    rw [hbelow]
    obtain ⟨front, hfront⟩ := List.getLast?_eq_some_iff.1 hname
    rw [directorySegments, hfront, List.dropLast_concat]
  refine ⟨below, name, heq, ?_, fun n hn => ?_⟩
  · have hmem : .named name ∈ segments path := by rw [heq]; simp
    exact Path.isName_of_named_mem hmem
  · have hmem : .named n ∈ segments path := by rw [heq]; simp [mem_names.1 hn]
    exact Path.isName_of_named_mem hmem

section

variable {common : List Segment} {path : String} {below : List Segment} {name : String}

/-- The names below the common directory. -/
theorem Parts.names (h : Parts common path below name) :
    names ((segments path).drop common.length) = names below ++ [name] := by
  rw [h.eq, List.append_assoc, List.drop_left, names_append]
  rfl

/-- Where a template belongs. -/
theorem Parts.place (h : Parts common path below name) :
    place common.length path = OutputFile.names below ++ [stem name ++ "." ++ extension] := by
  rw [OutputFile.place]
  simp only [h.names, List.dropLast_concat, List.getLast?_concat]
  rfl

/-- The output file of a template. -/
theorem Parts.ofTemplate (h : Parts common path below name) : ofTemplate common.length path =
    Path.ofPieces (OutputFile.names below ++ [withExtension extension name]) := by
  rw [OutputFile.ofTemplate]
  simp only [h.names, List.dropLast_concat, List.getLast?_concat]
  rfl

/-- The extension has no slash. -/
theorem extension_slashless : '/' ∉ extension.toList := by decide

/-- All pieces of an output file count. -/
theorem Parts.counts (h : Parts common path below name) :
    ∀ p ∈ OutputFile.names below ++ [withExtension extension name], Counts p := by
  rw [List.forall_mem_append, List.forall_mem_singleton]
  refine ⟨fun n hn => (h.isName_below n hn).toCounts, ?_⟩
  rcases Path.withExtension_cases h.isName extension_slashless (by decide) with ⟨-, heq⟩ | ⟨-, heq, hname⟩
  · rw [heq]
    exact ⟨by decide, by decide, by decide⟩
  · rw [heq]
    exact hname.toCounts

/-- The names in the path of a file stand for themselves. -/
theorem Parts.map_segmentOf_below (h : Parts common path below name) :
    (OutputFile.names below).map Path.segmentOf = (OutputFile.names below).map .named :=
  List.map_congr_left fun n hn => (h.isName_below n hn).segmentOf

/-- The segments of an output file. -/
theorem Parts.segments_ofTemplate (h : Parts common path below name) :
    segments (OutputFile.ofTemplate common.length path) =
      (OutputFile.names below).map .named ++ [Path.segmentOf (withExtension extension name)] := by
  rw [h.ofTemplate, Path.segments_ofPieces (by simp) h.counts, List.map_append, h.map_segmentOf_below,
    List.map_singleton]

/-- The output file of a template is where the template belongs, unless its name is two full stops and an
extension. -/
theorem Parts.segments_eq_place_iff (h : Parts common path below name) :
    segments (OutputFile.ofTemplate common.length path) =
        (OutputFile.place common.length path).map .named ↔ ¬ IsExtendedParent name := by
  rw [h.segments_ofTemplate, h.place, List.map_append, List.map_singleton, List.append_right_inj,
    ← Path.stem_eq_current_iff h.isName]
  rcases Path.withExtension_cases h.isName extension_slashless (by decide) with
    ⟨hstem, heq⟩ | ⟨hstem, heq, hname⟩
  · rw [heq]
    simp [Path.segmentOf, hstem]
  · rw [heq, hname.segmentOf]
    simp [hstem]

/-- The segments of the exceptional output file end in the way upwards. -/
theorem Parts.segments_of_isExtendedParent (h : Parts common path below name) (hname : IsExtendedParent name) :
    segments (OutputFile.ofTemplate common.length path) =
      (OutputFile.names below).map .named ++ [.parent] := by
  rw [h.segments_ofTemplate, withExtension, if_pos ((Path.stem_eq_current_iff h.isName).2 hname)]
  rfl

end

/-- Names with the extension of output files are the same if what is in front of their own extensions
is. -/
theorem withExtension_eq_iff {a b : String} (ha : IsName a) (hb : IsName b) :
    withExtension extension a = withExtension extension b ↔
      stem a ++ "." ++ extension = stem b ++ "." ++ extension := by
  have hext := extension_slashless
  have hlength : 1 < extension.length := by decide
  rcases Path.withExtension_cases ha hext hlength with ⟨hstem, heq⟩ | ⟨hstem, heq, hname⟩ <;>
    rcases Path.withExtension_cases hb hext hlength with ⟨hstem', heq'⟩ | ⟨hstem', heq', hname'⟩
  · simp [heq, heq', hstem, hstem']
  · refine iff_of_false ?_ ?_
    · rw [heq, heq']
      exact hname'.ne_parent.symm
    · rw [hstem, String.append_left_inj, String.append_left_inj]
      exact Ne.symm hstem'
  · refine iff_of_false ?_ ?_
    · rw [heq, heq']
      exact hname.ne_parent
    · rw [hstem', String.append_left_inj, String.append_left_inj]
      exact hstem
  · rw [heq, heq']

/-- Two templates have the same output file if and only if they belong at the same place. -/
theorem ofTemplate_eq_iff {common : List Segment} {a b : String} {below below' : List Segment}
    {name name' : String} (ha : Parts common a below name) (hb : Parts common b below' name') :
    ofTemplate common.length a = ofTemplate common.length b ↔
      place common.length a = place common.length b := by
  have hread : ofTemplate common.length a = ofTemplate common.length b ↔
      names below ++ [withExtension extension name] = names below' ++ [withExtension extension name'] := by
    rw [ha.ofTemplate, hb.ofTemplate]
    refine ⟨fun heq => ?_, congrArg Path.ofPieces⟩
    rw [← Path.pieces_ofPieces (by simp) fun p hp => (ha.counts p hp).slashless, heq,
      Path.pieces_ofPieces (by simp) fun p hp => (hb.counts p hp).slashless]
  rw [hread, ha.place, hb.place, List.append_singleton_inj, List.append_singleton_inj,
    withExtension_eq_iff ha.isName hb.isName]

/-! ## One template after the other -/

/-- Further templates get their output files if these are other ones than those that are given away, and no
two are the same. -/
theorem assign_eq_ok_iff {common : Nat} {done all : List (String × String)} {paths : List String}
    (hdone : (done.map (·.2)).Nodup) : assign common done paths = .ok all ↔
      (done.map (·.2) ++ paths.map (ofTemplate common)).Nodup ∧
        all = done ++ paths.map fun path => (path, ofTemplate common path) := by
  induction paths generalizing done with
  | nil => simp [assign, hdone, eq_comm]
  | cons path paths ih =>
    have hall (file : String) : done.map (·.2) ++ file :: paths.map (ofTemplate common) =
        (done ++ [(path, file)]).map (·.2) ++ paths.map (ofTemplate common) := by simp
    rw [assign, List.map_cons, hall]
    split
    · next earlier file hfind =>
      have hshared := List.find?_some hfind
      obtain rfl : file = ofTemplate common path := eq_of_beq hshared
      have hmem : ofTemplate common path ∈ done.map (·.2) :=
        List.mem_map.2 ⟨_, List.mem_of_find?_eq_some hfind, rfl⟩
      refine iff_of_false (by simp) fun h => ?_
      have hnodup := (List.nodup_append.1 h.1).1
      rw [List.map_append, List.map_singleton, List.nodup_append] at hnodup
      exact hnodup.2.2 _ hmem _ (List.mem_singleton_self _) rfl
    · next hfind =>
      have hother : ∀ entry ∈ done, entry.2 ≠ ofTemplate common path := fun entry hentry heq =>
        List.find?_eq_none.1 hfind entry hentry (beq_iff_eq.2 heq)
      have hnext : ((done ++ [(path, ofTemplate common path)]).map (·.2)).Nodup := by
        rw [List.map_append, List.map_singleton, List.nodup_append]
        refine ⟨hdone, List.nodup_singleton _, fun file hfile other hsame => ?_⟩
        obtain ⟨entry, hentry, rfl⟩ := List.mem_map.1 hfile
        rw [List.mem_singleton.1 hsame]
        exact hother entry hentry
      rw [ih hnext, List.map_cons, List.append_assoc done, List.singleton_append]

/-- There are output files if they are all different. -/
theorem ofTemplates_eq_ok_iff {paths files : List String} : ofTemplates paths = .ok files ↔
    (paths.map (ofTemplate (commonDirectory paths).length)).Nodup ∧
      files = paths.map (ofTemplate (commonDirectory paths).length) := by
  have hstart : (([] : List (String × String)).map (·.2)).Nodup := List.nodup_nil
  have hassign (all : List (String × String)) :
      assign (commonDirectory paths).length [] paths = .ok all ↔ _ := assign_eq_ok_iff hstart
  rw [ofTemplates]
  constructor
  · intro h
    cases hrun : assign (commonDirectory paths).length [] paths with
    | error e => rw [hrun] at h; cases h
    | ok all =>
      rw [hrun] at h
      obtain rfl := Except.ok.inj h
      obtain ⟨hnodup, rfl⟩ := (hassign all).1 hrun
      exact ⟨hnodup, by simp⟩
  · rintro ⟨hnodup, rfl⟩
    rw [(hassign _).2 ⟨hnodup, rfl⟩]
    simp [Except.map]

/-- No file is written if two templates would share one. -/
theorem run_writeResults_of_error {m : Type → Type} [Monad m] [LawfulMonad m] {fs : FileSystem m}
    {directory : String} {results : List (String × Compiled)} {e : RunError}
    (h : ofTemplates (results.map (·.1)) = .error e) (log : List LogRecord) :
    (ExceptT.run (Run.writeResults fs directory results)).run log = pure (.error e, log) := by
  rw [Run.writeResults, h]
  exact pure_bind _ _

/-! ## All templates -/

section

variable {paths : List String}

/-- Each of the templates has its parts. -/
theorem exists_parts_of_mem (h : ∀ path ∈ paths, HasName path) {path : String} (hpath : path ∈ paths) :
    ∃ below name, Parts (commonDirectory paths) path below name :=
  exists_parts (h path hpath)
    ((prefix_commonDirectory_iff (List.ne_nil_of_mem hpath)).1 (List.prefix_refl _) path hpath)

/-- The output files are all different if the places are. -/
theorem nodup_ofTemplate_iff (h : ∀ path ∈ paths, HasName path) :
    (paths.map (ofTemplate (commonDirectory paths).length)).Nodup ↔
      (paths.map (place (commonDirectory paths).length)).Nodup := by
  rw [List.Nodup, List.Nodup, List.pairwise_map, List.pairwise_map]
  refine List.Pairwise.iff_of_mem fun {a b} ha hb => not_congr ?_
  obtain ⟨below, name, hpa⟩ := exists_parts_of_mem h ha
  obtain ⟨below', name', hpb⟩ := exists_parts_of_mem h hb
  exact ofTemplate_eq_iff hpa hpb

end

/-- Whatever templates there are, as long as each has a name: there are output files if and only if no two
templates belong at the same place, which are the names below the longest common directory with the
extension of output files, and then there is one for each template in order. Joined to a directory, the
output file is at the place of its template below that directory, or, if the name of the template is two
full stops and an extension, it is the directory above. If there are no output files, writing the results
does nothing. -/
theorem ofTemplates_places {paths : List String} (h : ∀ path ∈ paths, HasName path) :
    let common := commonDirectory paths
    let file := ofTemplate common.length
    (paths ≠ [] → ∀ front, front <+: common ↔ ∀ path ∈ paths, front <+: directorySegments path) ∧
    ((∃ files, ofTemplates paths = .ok files) ↔ (paths.map (place common.length)).Nodup) ∧
    (∀ files, ofTemplates paths = .ok files → files = paths.map file) ∧
    (∀ path ∈ paths, ∃ below name, segments path = common ++ below ++ [.named name] ∧
      place common.length path = names below ++ [stem name ++ "." ++ extension] ∧
      (segments (file path) = (place common.length path).map .named ↔ ¬ IsExtendedParent name) ∧
      (IsExtendedParent name → segments (file path) = (names below).map .named ++ [.parent]) ∧
      ∀ directory, segments (Path.join directory (file path)) =
        segments directory ++ segments (file path)) ∧
    ∀ (m : Type → Type) [Monad m] [LawfulMonad m] (fs : FileSystem m) (directory : String)
      (results : List (String × Compiled)) (log : List LogRecord) (e : RunError),
      results.map (·.1) = paths → ofTemplates paths = .error e →
        (ExceptT.run (Run.writeResults fs directory results)).run log = pure (.error e, log) := by
  intro common file
  refine ⟨fun hne _ => prefix_commonDirectory_iff hne, ?_, fun files hfiles =>
    (ofTemplates_eq_ok_iff.1 hfiles).2, fun path hpath => ?_, ?_⟩
  · rw [← nodup_ofTemplate_iff h]
    constructor
    · rintro ⟨files, hfiles⟩
      exact (ofTemplates_eq_ok_iff.1 hfiles).1
    · exact fun hnodup => ⟨_, ofTemplates_eq_ok_iff.2 ⟨hnodup, rfl⟩⟩
  · obtain ⟨below, name, hparts⟩ := exists_parts_of_mem h hpath
    refine ⟨below, name, hparts.eq, hparts.place, hparts.segments_eq_place_iff,
      hparts.segments_of_isExtendedParent, fun directory => ?_⟩
    rw [show file path = _ from hparts.ofTemplate]
    exact Path.segments_join directory (by simp) hparts.counts
  · rintro m _ _ fs directory results log e rfl he
    exact run_writeResults_of_error he log

/-- Two absolute paths, with a way upwards in one of them. -/
theorem ofTemplates_places_views :
    let paths := ["/src/./a/view.html", "/src/b/../c/list.html"]
    (∀ path ∈ paths, HasName path) ∧ commonDirectory paths = [.root, .named "src"] ∧
      ofTemplates paths = .ok ["a/view.json", "b/c/list.json"] := by
  intro paths
  have hnames : ∀ path ∈ paths, HasName path :=
    List.forall_mem_cons.2 ⟨⟨"view.html", by decide +kernel⟩,
      List.forall_mem_singleton.2 ⟨"list.html", by decide +kernel⟩⟩
  obtain ⟨-, hnodup, hfiles, -⟩ := ofTemplates_places hnames
  obtain ⟨files, hok⟩ := hnodup.2 (by decide +kernel)
  refine ⟨hnames, by decide +kernel, hok.trans ?_⟩
  rw [hfiles files hok]
  decide +kernel

/-- The output file of a template whose name is two full stops and an extension leads out of the output
directory. -/
theorem exists_ofTemplates_parent :
    HasName "..x" ∧ place (commonDirectory ["..x"]).length "..x" = ["..json"] ∧
      ofTemplates ["..x"] = .ok [".."] ∧ segments (Path.join "out" "..") = [.named "out", .parent] :=
  ⟨⟨"..x", by decide +kernel⟩, by decide +kernel⟩

end OutputFile

end Stencil
