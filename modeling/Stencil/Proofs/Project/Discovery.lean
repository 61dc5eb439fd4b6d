import Stencil.Project.Discovery
import Stencil.Proofs.Basic
import Stencil.Proofs.File.Reading
import Mathlib.Data.List.Basic

/-!
# What discovery lists

An argument mentions the file that it leads to, or else the files that it expands to as a pattern.

**The law** (`discover_lists`): whatever the file system and the patterns are, as long as asking them
changes nothing, discovery changes nothing either, and fails if and only if some argument is refused:
one that mentions no file, or a pattern that mentions none that was not mentioned before. Otherwise it
lists, repetitions apart, all that the arguments mention, in the order of first mention; it repeats a
file in one case, when an argument leads to it and it was mentioned before. The second half of the
condition to fail is seen in `exists_discover_refused`: a pattern is refused though its files are
there.

Paths are the same if they have the same segments, so first mentions are told by `Path.firstMentions`.
What the induction over the arguments keeps is that the files named so far and the files mentioned so
far have the same first mentions (`Inventory.addTo_eq_ok`, `Inventory.filesOf_eq_ok`). The run itself
is a program that only reads, so it is a function of what can be found in its state
(`Inventory.run_discover`).

**What it does not establish.** What a pattern expands to is not described; any expansion that only
reads will do.
-/

namespace Stencil

/-! ## First mentions -/

namespace Path

variable {a b file : String} {files found more : List String}

/-- Paths are the same if they have the same segments. -/
theorem same_iff : same a b = true ↔ segments a = segments b := decide_eq_true_iff

/-- Paths that are the same are the same as the same paths. -/
theorem same_congr (h : same a b = true) (c : String) : same a c = same b c := by
  rw [Bool.eq_iff_iff, same_iff, same_iff, same_iff.1 h]

/-- Whether the file is one of the given ones. -/
def isAmong (files : List String) (file : String) : Bool := files.any (same file)

/-- The files without those that were mentioned before. -/
def firstMentions (files : List String) : List String := files.eraseDupsBy same

/-- The first file is mentioned first, and its repetitions are left out. -/
theorem firstMentions_cons (file : String) (files : List String) :
    firstMentions (file :: files) =
      file :: firstMentions (files.filter fun other => !same other file) := by
  simp [firstMentions, List.eraseDupsBy_cons]

/-- A file is among others if it is the first or among the rest. -/
theorem isAmong_cons (first : String) (files : List String) (file : String) :
    isAmong (first :: files) file = (same file first || isAmong files file) := rfl

/-- Leaving out the repetitions of a file leaves out no other one. -/
theorem isAmong_filter (h : same b a = false) (files : List String) :
    isAmong (files.filter fun other => !same other a) b = isAmong files b := by
  rw [isAmong, List.any_filter]
  refine List.any_congr rfl fun other => ?_
  cases hother : same b other with
  | false => rw [Bool.and_false]
  | true => rw [← same_congr hother, h]; rfl

/-- Induction along the first mentions of a list. -/
@[elab_as_elim]
theorem mentions_induction {P : List String → Prop} (nil : P [])
    (cons : ∀ file files, P (files.filter fun other => !same other file) → P (file :: files))
    (files : List String) : P files :=
  match files with
  | [] => nil
  | file :: files => cons file files (mentions_induction nil cons _)
termination_by files.length
decreasing_by exact Nat.lt_succ_of_le (List.length_filter_le _ files)

/-- Every file that is mentioned is mentioned for the first time. -/
theorem isAmong_firstMentions (files : List String) (file : String) :
    isAmong (firstMentions files) file = isAmong files file := by
  induction files using mentions_induction with
  | nil => rfl
  | cons first files ih =>
    rw [firstMentions_cons, isAmong_cons, isAmong_cons, ih]
    cases hfirst : same file first with
    | true => rfl
    | false => rw [isAmong_filter hfirst]

/-- What comes later is mentioned for the first time if it was not mentioned before. -/
theorem firstMentions_append (files more : List String) : firstMentions (files ++ more) =
    firstMentions files ++ firstMentions (more.filter fun other => !isAmong files other) := by
  induction files using mentions_induction generalizing more with
  | nil => exact congrArg firstMentions (List.filter_eq_self.2 fun _ _ => rfl).symm
  | cons first files ih =>
    rw [List.cons_append, firstMentions_cons, firstMentions_cons, List.filter_append, ih,
      List.filter_filter, List.cons_append]
    congr 3
    refine List.filter_congr fun other _ => ?_
    rw [isAmong_cons]
    cases hfirst : same other first with
    | true => simp
    | false => simp [isAmong_filter hfirst]

/-- First mentions keep their order. -/
theorem firstMentions_sublist (files : List String) : (firstMentions files).Sublist files := by
  induction files using mentions_induction with
  | nil => exact .refl _
  | cons first files ih =>
    rw [firstMentions_cons]
    exact (ih.trans List.filter_sublist).cons_cons first

/-- What is added depends on what is there by its first mentions only. -/
theorem firstMentions_append_congr (h : firstMentions files = firstMentions found) (more : List String) :
    firstMentions (files ++ more) = firstMentions (found ++ more) := by
  have hamong (file : String) : isAmong files file = isAmong found file := by
    rw [← isAmong_firstMentions, h, isAmong_firstMentions]
  simp only [firstMentions_append, h, hamong]

/-- One more file is listed for the first time, or once more. -/
theorem concat_eq_firstMentions_iff (files : List String) (file : String) :
    files ++ [file] = firstMentions (files ++ [file]) ↔
      files = firstMentions files ∧ isAmong files file = false := by
  rw [firstMentions_append]
  cases hamong : isAmong files file with
  | false => simp [hamong, firstMentions, List.eraseDupsBy_cons]
  | true =>
    refine iff_of_false (fun heq => ?_) (fun h => by cases h.2)
    rw [List.filter_cons_of_neg (by simp [hamong])] at heq
    have hlength := congrArg List.length heq
    have hle := (firstMentions_sublist files).length_le
    rw [List.length_append, List.length_append, List.length_singleton] at hlength
    change files.length + 1 = _ + 0 at hlength
    omega

end Path

namespace Argument

open Stencil.Path (isAmong firstMentions)

/-- The files that were found are added without those that are there, and each once. -/
theorem addNew_eq (files found : List String) :
    addNew files found = files ++ firstMentions (found.filter fun file => !isAmong files file) := by
  induction found generalizing files with
  | nil => exact (List.append_nil files).symm
  | cons file found ih =>
    show addNew (if isAmong files file then files else files ++ [file]) found = _
    cases hamong : isAmong files file with
    | true => rw [if_pos rfl, ih, List.filter_cons_of_neg (by simp [hamong])]
    | false =>
      rw [if_neg Bool.false_ne_true, ih, List.filter_cons_of_pos (by simp [hamong]),
        Path.firstMentions_cons, List.filter_filter, List.append_assoc, List.singleton_append]
      congr 3
      refine List.filter_congr fun other _ => ?_
      simp [isAmong, Bool.and_comm]

/-- Adding files to those that are there mentions them behind those. -/
theorem firstMentions_addNew (files found : List String) :
    firstMentions (addNew files found) = firstMentions (files ++ found) := by
  induction found generalizing files with
  | nil => rw [List.append_nil]; rfl
  | cons file found ih =>
    refine (ih (if isAmong files file then files else files ++ [file])).trans ?_
    cases hamong : isAmong files file with
    | true =>
      rw [if_pos rfl, Path.firstMentions_append, Path.firstMentions_append,
        List.filter_cons_of_neg (by simp [hamong])]
    | false => rw [if_neg Bool.false_ne_true, List.append_assoc, List.singleton_append]

/-- Nothing is added if all that was found is there. -/
theorem length_addNew_eq_iff (files found : List String) :
    (addNew files found).length = files.length ↔ found.all (isAmong files) = true := by
  rw [addNew_eq, List.length_append, Nat.add_eq_left, List.length_eq_zero_iff, List.all_eq_true]
  constructor
  · intro hnil file hfile
    cases hnew : isAmong files file with
    | true => rfl
    | false =>
      have hmem : file ∈ found.filter fun file => !isAmong files file :=
        List.mem_filter.2 ⟨hfile, by simp [hnew]⟩
      obtain ⟨first, more, hcons⟩ := List.exists_cons_of_ne_nil (List.ne_nil_of_mem hmem)
      rw [hcons, Path.firstMentions_cons] at hnil
      cases hnil
  · intro hall
    rw [List.filter_eq_nil_iff.2 fun file hfile => by simp [hall file hfile]]
    rfl

end Argument

/-! ## Arguments -/

/-- What can be found: which paths lead to a file, and to what paths a pattern expands if it is well
formed. -/
structure Inventory where
  isFile : String → Bool
  expansion? : String → Option (List String)

namespace Inventory

open Stencil.Path (isAmong firstMentions)

/-- What file system and patterns answer in a state. -/
def ofState {σ : Type} (fs : FileSystem (StateM σ)) (expand : String → Option (StateM σ (List String)))
    (s : σ) : Inventory where
  isFile path := answerIn s (fs.isFile path)
  expansion? text := (expand text).map (answerIn s)

variable (v : Inventory)

/-- The files that an argument mentions: the one that it leads to, or those that it expands to. There are
none if it is neither the path of a file nor a well-formed pattern. -/
def mentions (text : String) : List String :=
  if v.isFile text then [text] else ((v.expansion? text).getD []).filter v.isFile

/-- The arguments mention the file. -/
def Mentioned (texts : List String) (file : String) : Prop :=
  ∃ earlier ∈ texts.flatMap v.mentions, Path.same file earlier = true

/-- What an argument is. -/
def argument (text : String) : Argument :=
  if v.isFile text then .file
  else
    match v.expansion? text with
    | none => .malformed
    | some paths => .pattern (paths.filter v.isFile)

variable {v} {texts before files all : List String} {text : String} {e : RunError}

/-- A file is mentioned if it is among all that the arguments mention. -/
theorem mentioned_iff {file : String} :
    v.Mentioned texts file ↔ isAmong (texts.flatMap v.mentions) file = true := List.any_eq_true.symm

/-- An argument that is refused: a pattern that mentions no file that was not mentioned before. -/
def Refuses (v : Inventory) (before : List String) (text : String) : Prop :=
  v.isFile text = false ∧ ∀ file ∈ v.mentions text, v.Mentioned before file

/-- An argument that leads to a file that was mentioned before. -/
def Repeats (v : Inventory) (before : List String) (text : String) : Prop :=
  v.isFile text = true ∧ v.Mentioned before text

/-- An argument that mentions no file is refused. -/
theorem refuses_of_mentions_eq_nil (v : Inventory) (before : List String) (h : v.mentions text = []) :
    v.Refuses before text := by
  refine ⟨?_, by simp [h]⟩
  cases hfile : v.isFile text with
  | false => rfl
  | true => simp [mentions, hfile] at h

/-- Why an argument is refused. -/
def fault (v : Inventory) (text : String) : RunError :=
  match v.expansion? text with
  | none => .malformedPattern text
  | some _ => .noMatch text

/-! ## One argument after the other -/

/-- An argument that leads to a file adds it, in any case. -/
theorem addTo_of_isFile (h : v.isFile text = true) :
    (v.argument text).addTo files text = .ok (files ++ [text]) := by
  rw [argument, if_pos h]
  rfl

/-- A pattern adds the files that are not there, and fails if there are none. -/
theorem addTo_of_not_isFile (h : v.isFile text = false) : (v.argument text).addTo files text =
    if (v.mentions text).all (isAmong files) = true then .error (v.fault text)
    else .ok (Argument.addNew files (v.mentions text)) := by
  have hmentions : v.mentions text = ((v.expansion? text).getD []).filter v.isFile := if_neg (by simp [h])
  rw [argument, if_neg (by simp [h]), hmentions, fault]
  cases v.expansion? text with
  | none => rfl
  | some paths =>
    simp only [Argument.addTo, Argument.length_addNew_eq_iff, Option.getD_some]

/-- One more argument mentions its files behind the others. -/
theorem flatMap_concat (v : Inventory) (before : List String) (text : String) :
    (before ++ [text]).flatMap v.mentions = before.flatMap v.mentions ++ v.mentions text := by
  rw [List.flatMap_append, List.flatMap_singleton]

/-- A file is among those named so far if it was mentioned. -/
theorem isAmong_eq (h : firstMentions files = firstMentions (before.flatMap v.mentions)) (file : String) :
    isAmong files file = true ↔ v.Mentioned before file := by
  rw [mentioned_iff, ← Path.isAmong_firstMentions, h, Path.isAmong_firstMentions]

/-- A pattern is refused if all its files are among those named so far. -/
theorem refuses_iff (h : firstMentions files = firstMentions (before.flatMap v.mentions))
    (hfile : v.isFile text = false) :
    v.Refuses before text ↔ (v.mentions text).all (isAmong files) = true := by
  simp only [Refuses, hfile, true_and, List.all_eq_true, isAmong_eq h]

/-- What an argument that is not refused adds. -/
theorem addTo_eq_ok {next : List String}
    (h : firstMentions files = firstMentions (before.flatMap v.mentions))
    (hnext : (v.argument text).addTo files text = .ok next) :
    ¬ v.Refuses before text ∧
      firstMentions next = firstMentions ((before ++ [text]).flatMap v.mentions) ∧
      (next = firstMentions next ↔ files = firstMentions files ∧ ¬ v.Repeats before text) := by
  rw [flatMap_concat, ← Path.firstMentions_append_congr h]
  cases hfile : v.isFile text with
  | true =>
    rw [addTo_of_isFile hfile] at hnext
    obtain rfl := Except.ok.inj hnext
    refine ⟨fun hrefuses => ?_, ?_, ?_⟩
    · rw [hrefuses.1] at hfile
      cases hfile
    · rw [mentions, if_pos hfile]
    · rw [Path.concat_eq_firstMentions_iff, Repeats, hfile, ← isAmong_eq h]
      simp
  | false =>
    rw [addTo_of_not_isFile hfile] at hnext
    split at hnext
    · cases hnext
    · next hnew =>
      obtain rfl := Except.ok.inj hnext
      refine ⟨fun hrefuses => hnew ((refuses_iff h hfile).1 hrefuses), Argument.firstMentions_addNew _ _, ?_⟩
      rw [Argument.firstMentions_addNew, Argument.addNew_eq, Path.firstMentions_append,
        List.append_left_inj, Repeats, hfile]
      simp

/-- An argument that fails is refused. -/
theorem addTo_eq_error (h : firstMentions files = firstMentions (before.flatMap v.mentions))
    (he : (v.argument text).addTo files text = .error e) :
    v.Refuses before text ∧ e = v.fault text := by
  cases hfile : v.isFile text with
  | true =>
    rw [addTo_of_isFile hfile] at he
    cases he
  | false =>
    rw [addTo_of_not_isFile hfile] at he
    split at he
    · next hall => exact ⟨(refuses_iff h hfile).2 hall, (Except.error.inj he).symm⟩
    · cases he

/-- The arguments with what they are. -/
def arguments (v : Inventory) (texts : List String) : List (String × Argument) :=
  texts.map fun text => (text, v.argument text)

/-- The first argument, then the others. -/
theorem filesOf_cons (v : Inventory) (files : List String) (text : String) (texts : List String) :
    Argument.filesOf files (v.arguments (text :: texts)) =
      (v.argument text).addTo files text >>= fun next => Argument.filesOf next (v.arguments texts) := rfl

/-- What arguments come to none of which is refused. -/
theorem filesOf_eq_ok (h : firstMentions files = firstMentions (before.flatMap v.mentions))
    (hall : Argument.filesOf files (v.arguments texts) = .ok all) :
    (∀ init text rest, texts = init ++ text :: rest → ¬ v.Refuses (before ++ init) text) ∧
      firstMentions all = firstMentions ((before ++ texts).flatMap v.mentions) ∧
      (all = firstMentions all ↔ files = firstMentions files ∧
        ∀ init text rest, texts = init ++ text :: rest → ¬ v.Repeats (before ++ init) text) := by
  induction texts generalizing files before with
  | nil =>
    obtain rfl := Except.ok.inj hall
    simp [h]
  | cons text texts ih =>
    rw [filesOf_cons] at hall
    cases hnext : (v.argument text).addTo files text with
    | error e =>
      rw [hnext] at hall
      cases hall
    | ok next =>
      have hrest : Argument.filesOf next (v.arguments texts) = .ok all := by rwa [hnext] at hall
      obtain ⟨hkept, hmentions, honce⟩ := addTo_eq_ok h hnext
      obtain ⟨hkepts, hmentions', honces⟩ := ih hmentions hrest
      simp only [List.append_assoc, List.singleton_append] at hkepts hmentions' honces
      rw [forall_split_cons, forall_split_cons, List.append_nil]
      exact ⟨⟨hkept, hkepts⟩, hmentions', honces.trans (by rw [honce, and_assoc])⟩

/-- What arguments come to one of which is refused. -/
theorem filesOf_eq_error (h : firstMentions files = firstMentions (before.flatMap v.mentions))
    (he : Argument.filesOf files (v.arguments texts) = .error e) :
    ∃ init text rest, texts = init ++ text :: rest ∧ v.Refuses (before ++ init) text ∧
      e = v.fault text := by
  induction texts generalizing files before with
  | nil => cases he
  | cons text texts ih =>
    rw [filesOf_cons] at he
    cases hnext : (v.argument text).addTo files text with
    | error e' =>
      rw [hnext] at he
      obtain rfl := Except.error.inj he
      obtain ⟨hrefuses, hfault⟩ := addTo_eq_error h hnext
      exact ⟨[], text, texts, rfl, by rwa [List.append_nil], hfault⟩
    | ok next =>
      have hrest : Argument.filesOf next (v.arguments texts) = .error e := by rwa [hnext] at he
      obtain ⟨init, last, rest, rfl, hrefuses, hfault⟩ := ih (addTo_eq_ok h hnext).2.1 hrest
      rw [List.append_assoc] at hrefuses
      exact ⟨text :: init, last, rest, rfl, hrefuses, hfault⟩

/-! ## The run -/

section

variable {σ : Type} {fs : FileSystem (StateM σ)} {expand : String → Option (StateM σ (List String))}

/-- Finding out what an argument is changes nothing. -/
theorem readsOnly_ofText (hfs : ∀ path, ReadsOnly (fs.isFile path))
    (hexpand : ∀ text, ∀ x ∈ expand text, ReadsOnly x) (text : String) :
    ReadsOnly (Argument.ofText fs expand text) := by
  refine (hfs text).bind fun _ => .ite (.pure _) ?_
  split
  · exact .pure _
  · next paths hpaths =>
    exact (hexpand text paths hpaths).bind fun _ => (ReadsOnly.filterM hfs _).bind fun _ => .pure _

/-- What an argument is, in a state. -/
theorem answerIn_ofText (hfs : ∀ path, ReadsOnly (fs.isFile path))
    (hexpand : ∀ text, ∀ x ∈ expand text, ReadsOnly x) (s : σ) (text : String) :
    answerIn s (Argument.ofText fs expand text) = (ofState fs expand s).argument text := by
  rw [Argument.ofText, answerIn_bind (hfs text), argument]
  change _ = if answerIn s (fs.isFile text) = true then _ else _
  by_cases hfile : answerIn s (fs.isFile text) = true
  · rw [if_pos hfile, if_pos hfile]
    rfl
  · rw [if_neg hfile, if_neg hfile, ofState]
    dsimp only
    cases hpattern : expand text with
    | none => rfl
    | some paths =>
      dsimp only [Option.map_some]
      rw [answerIn_bind (hexpand text paths hpattern), answerIn_bind (.filterM hfs _),
        answerIn_filterM hfs]
      rfl

/-- Discovery changes nothing, and what it comes to depends on what can be found in its state only. -/
theorem run_discover (hfs : ∀ path, ReadsOnly (fs.isFile path))
    (hexpand : ∀ text, ∀ x ∈ expand text, ReadsOnly x) (s : σ) (texts : List String) :
    (discover fs expand texts).run s =
      (Argument.filesOf [] ((ofState fs expand s).arguments texts), s) := by
  have hpair (text : String) :
      ReadsOnly (do return (text, ← Argument.ofText fs expand text) : StateM σ (String × Argument)) :=
    (readsOnly_ofText hfs hexpand text).bind fun _ => .pure _
  have hreads : ReadsOnly (discover fs expand texts) := (ReadsOnly.mapM hpair texts).bind fun _ => .pure _
  rw [hreads.run s, discover, answerIn_bind (.mapM hpair texts), answerIn_mapM hpair, answerIn_pure,
    arguments]
  refine congrArg (fun entries => (Argument.filesOf [] entries, s)) (List.map_congr_left fun text _ => ?_)
  rw [answerIn_bind (readsOnly_ofText hfs hexpand text), answerIn_ofText hfs hexpand]
  rfl

end

end Inventory

/-- Whatever file system and patterns are, as long as asking them changes nothing: discovery fails if and
only if some argument mentions no file, or some pattern mentions only files that were mentioned before.
Otherwise it lists all files that the arguments mention, in the order of first mention if repetitions are
left aside; and there is no repetition if and only if no argument leads to a file that was mentioned
before. -/
theorem discover_lists {σ : Type} {fs : FileSystem (StateM σ)}
    {expand : String → Option (StateM σ (List String))} (hfs : ∀ path, ReadsOnly (fs.isFile path))
    (hexpand : ∀ text, ∀ x ∈ expand text, ReadsOnly x) (s : σ) (texts : List String) :
    let v := Inventory.ofState fs expand s
    let mentions := texts.flatMap v.mentions
    ∃ outcome, (discover fs expand texts).run s = (outcome, s) ∧
      ((∃ e, outcome = .error e) ↔
        (∃ text ∈ texts, v.mentions text = []) ∨
        ∃ before text after, texts = before ++ text :: after ∧ v.isFile text = false ∧
          v.mentions text ≠ [] ∧ ∀ file ∈ v.mentions text, v.Mentioned before file) ∧
      ∀ files, outcome = .ok files →
        Path.firstMentions files = Path.firstMentions mentions ∧
        (files = Path.firstMentions mentions ↔
          ∀ before text after, texts = before ++ text :: after → v.isFile text = true →
            ¬ v.Mentioned before text) := by
  intro v mentions
  have hstart : Path.firstMentions [] = Path.firstMentions (([] : List String).flatMap v.mentions) := rfl
  refine ⟨_, Inventory.run_discover hfs hexpand s texts, ⟨?_, fun hfails => ?_⟩, fun files hfiles => ?_⟩
  · rintro ⟨e, he⟩
    obtain ⟨init, text, rest, rfl, ⟨hfile, hall⟩, -⟩ := Inventory.filesOf_eq_error hstart he
    by_cases hnone : v.mentions text = []
    · exact .inl ⟨text, by simp, hnone⟩
    · exact .inr ⟨init, text, rest, rfl, hfile, hnone, hall⟩
  · have hrefuses : ∃ init text rest, texts = init ++ text :: rest ∧ v.Refuses init text := by
      rcases hfails with ⟨text, htext, hnone⟩ | ⟨init, text, rest, heq, hfile, -, hall⟩
      · obtain ⟨init, rest, heq⟩ := List.append_of_mem htext
        exact ⟨init, text, rest, heq, v.refuses_of_mentions_eq_nil init hnone⟩
      · exact ⟨init, text, rest, heq, hfile, hall⟩
    obtain ⟨init, text, rest, heq, hrefuses⟩ := hrefuses
    -- If it did not fail, no argument would be refused.
    cases hrun : Argument.filesOf [] (v.arguments texts) with
    | error e => exact ⟨e, rfl⟩
    | ok files => exact absurd hrefuses ((Inventory.filesOf_eq_ok hstart hrun).1 init text rest heq)
  · obtain ⟨-, hmentions, honce⟩ := Inventory.filesOf_eq_ok hstart hfiles
    rw [List.nil_append] at hmentions
    refine ⟨hmentions, ?_⟩
    rw [show Path.firstMentions mentions = Path.firstMentions files from hmentions.symm, honce]
    simp only [Inventory.Repeats, List.nil_append, not_and]
    exact and_iff_right rfl

/-- A pattern and then a path, in a tree in which both can be found. -/
theorem discover_lists_views :
    let tree : FileTree := { entries :=
      [(["v"], .directory), (["v", "a.html"], .file .empty), (["w"], .directory),
        (["w", "b.txt"], .file .empty)] }
    let expand := Glob.expansion? FileTree.system
    (∀ path, ReadsOnly (FileTree.system.isFile path)) ∧ (∀ text, ∀ x ∈ expand text, ReadsOnly x) ∧
      (discover FileTree.system expand ["v/*.html", "w/b.txt"]).run tree =
        (.ok ["v/a.html", "w/b.txt"], tree) := by
  intro tree expand
  let v := Inventory.ofState FileTree.system expand tree
  have hfs := FileTree.quiet_system.isFile
  have hexpand : ∀ text, ∀ x ∈ expand text, ReadsOnly x := fun _ _ hx =>
    Glob.readsOnly_of_mem_expansion? FileTree.quiet_system hx
  have hpattern : v.mentions "v/*.html" = ["v/a.html"] := by decide +kernel
  have hpath : v.mentions "w/b.txt" = ["w/b.txt"] := by decide +kernel
  obtain ⟨outcome, hrun, hfails, hlists⟩ := discover_lists hfs hexpand tree ["v/*.html", "w/b.txt"]
  refine ⟨hfs, hexpand, hrun.trans ?_⟩
  have hfile : v.isFile "v/*.html" = false ∧ v.isFile "w/b.txt" = true := by decide +kernel
  have hsplit {P : List String → String → Prop} (hfirst : P [] "v/*.html")
      (hsecond : P ["v/*.html"] "w/b.txt") : ∀ before text after,
        ["v/*.html", "w/b.txt"] = before ++ text :: after → P before text :=
    forall_split_cons.2 ⟨hfirst, forall_split_cons.2 ⟨hsecond, by simp⟩⟩
  cases outcome with
  | error e =>
    exfalso
    rcases hfails.1 ⟨e, rfl⟩ with ⟨text, htext, hnone⟩ | ⟨before, text, after, heq, hnot, -, hall⟩
    · change v.mentions text = [] at hnone
      rcases List.mem_cons.1 htext with rfl | htext
      · simp [hpattern] at hnone
      · obtain rfl := List.mem_singleton.1 htext
        simp [hpath] at hnone
    · refine hsplit (P := fun before text => ¬ (v.isFile text = false ∧
        ∀ file ∈ v.mentions text, v.Mentioned before file)) ?_ ?_ before text after heq ⟨hnot, hall⟩
      · simp [hpattern, Inventory.Mentioned]
      · simp [hfile.2]
  | ok files =>
    have honce : ∀ before text after, ["v/*.html", "w/b.txt"] = before ++ text :: after →
        v.isFile text = true → ¬ v.Mentioned before text := by
      refine hsplit (fun h => ?_) fun _ => ?_
      · rw [hfile.1] at h
        cases h
      · simp only [Inventory.Mentioned, List.flatMap_singleton, hpattern]
        decide
    obtain rfl := (hlists files rfl).2.2 honce
    have hmentions : ["v/*.html", "w/b.txt"].flatMap v.mentions = ["v/a.html", "w/b.txt"] := by
      simp [hpattern, hpath]
    change (Except.ok (Path.firstMentions (["v/*.html", "w/b.txt"].flatMap v.mentions)), tree) = _
    rw [hmentions]
    rfl

/-- A pattern all of whose files were mentioned before is refused, though they are there. And a path that
was mentioned before is listed once more. -/
theorem exists_discover_refused :
    let tree : FileTree := { entries := [(["a.html"], .file .empty)] }
    let expand := Glob.expansion? FileTree.system
    (expand "*.html").map (answerIn tree) = some ["a.html"] ∧
      ((discover FileTree.system expand ["a.html", "*.html"]).run tree).1 = .error (.noMatch "*.html") ∧
      ((discover FileTree.system expand ["*.html", "a.html"]).run tree).1 = .ok ["a.html", "a.html"] := by
  decide +kernel

end Stencil
