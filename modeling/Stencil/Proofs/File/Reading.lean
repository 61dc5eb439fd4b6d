import Stencil.File.Tree
import Stencil.Glob.Expand

/-!
# Operations that only read

A run over the files of a project is a program with a state. Most of it only asks: whatever the state
is, it gives an answer and leaves the state as it was (`ReadsOnly`). What is put together of such
operations is one of them: in sequence (`ReadsOnly.bind`), by a choice (`ReadsOnly.ite`), along a list
(`ReadsOnly.mapM`, `ReadsOnly.filterM`).

Then the answer depends on nothing but the state that all of them were asked in, and it can be
computed without passing a state along: `answerIn_bind`, `answerIn_mapM` and `answerIn_filterM` turn
the program into a function of its answers. That is how the list of templates is told in
Proofs/Project/Discovery.

The expansion of a pattern is such a program: `Glob.readsOnly_of_mem_expansion?`, for any file system
whose questions change nothing (`FileSystem.Quiet`). The tree of files that a project is tested with
is one (`FileTree.quiet_system`).

**What it does not establish.** Which files a pattern finds is not said; only that asking for them
leaves everything in place.
-/

namespace Stencil

variable {σ α β : Type}

/-- The operation leaves every state as it is. -/
def ReadsOnly (x : StateM σ α) : Prop := ∀ s, (x.run s).2 = s

/-- What the operation answers in the state. -/
def answerIn (s : σ) (x : StateM σ α) : α := (x.run s).1

namespace ReadsOnly

variable {x : StateM σ α} {f : α → StateM σ β}

/-- A run gives the answer and the state it was asked in. -/
theorem run (h : ReadsOnly x) (s : σ) : x.run s = (answerIn s x, s) := Prod.ext rfl (h s)

theorem pure (a : α) : ReadsOnly (pure a : StateM σ α) := fun _ => rfl

/-- One question after another, the second chosen by the answer to the first. -/
theorem bind (h : ReadsOnly x) (hf : ∀ a, ReadsOnly (f a)) : ReadsOnly (x >>= f) := by
  intro s
  rw [StateT.run_bind, h.run s]
  exact hf _ s

/-- A choice between two questions. -/
theorem ite {c : Prop} [Decidable c] {y : StateM σ α} (h : ReadsOnly x) (hy : ReadsOnly y) :
    ReadsOnly (if c then x else y) := by
  split
  · exact h
  · exact hy

/-- A question for each value of a list. -/
theorem mapM (hf : ∀ a, ReadsOnly (f a)) (as : List α) : ReadsOnly (as.mapM f) := by
  induction as with
  | nil => exact pure []
  | cons a as ih =>
    rw [List.mapM_cons]
    exact (hf a).bind fun _ => ih.bind fun _ => pure _

end ReadsOnly

/-- The answer of a value is the value. -/
theorem answerIn_pure (s : σ) (a : α) : answerIn s (pure a : StateM σ α) = a := rfl

/-- One answer after the other, all in the same state. -/
theorem answerIn_bind {x : StateM σ α} (h : ReadsOnly x) (f : α → StateM σ β) (s : σ) :
    answerIn s (x >>= f) = answerIn s (f (answerIn s x)) := by
  rw [answerIn, StateT.run_bind, h.run s]
  rfl

/-- The answers to the questions of a list, all in the same state. -/
theorem answerIn_mapM {f : α → StateM σ β} (hf : ∀ a, ReadsOnly (f a)) (s : σ) (as : List α) :
    answerIn s (as.mapM f) = as.map fun a => answerIn s (f a) := by
  induction as with
  | nil => rfl
  | cons a as ih =>
    rw [List.mapM_cons, answerIn_bind (hf a), answerIn_bind (.mapM hf as), ih]
    rfl

/-- Filtering keeps what it has kept so far, in reverse. -/
private theorem run_filterAuxM {p : α → StateM σ Bool} (hp : ∀ a, ReadsOnly (p a)) (s : σ)
    (as kept : List α) : (as.filterAuxM p kept).run s =
      ((as.filter fun a => answerIn s (p a)).reverse ++ kept, s) := by
  induction as generalizing kept with
  | nil => rfl
  | cons a as ih =>
    rw [List.filterAuxM, StateT.run_bind, (hp a).run s, List.filter_cons]
    refine (ih _).trans ?_
    cases answerIn s (p a) <;> simp

/-- A list filtered by a question. -/
theorem ReadsOnly.filterM {p : α → StateM σ Bool} (hp : ∀ a, ReadsOnly (p a)) (as : List α) :
    ReadsOnly (as.filterM p) :=
  .bind (fun s => by rw [run_filterAuxM hp]) fun _ => .pure _

/-- A filtered list has the values whose questions are answered with yes. -/
theorem answerIn_filterM {p : α → StateM σ Bool} (hp : ∀ a, ReadsOnly (p a)) (s : σ) (as : List α) :
    answerIn s (as.filterM p) = as.filter fun a => answerIn s (p a) := by
  rw [List.filterM, answerIn, StateT.run_bind, run_filterAuxM hp]
  show (List.reverse _) = _
  simp

/-! ## Patterns -/

/-- A file system that changes nothing when it is asked something. -/
structure FileSystem.Quiet (fs : FileSystem (StateM σ)) : Prop where
  pathExists : ∀ path, ReadsOnly (fs.pathExists path)
  isDirectory : ∀ path, ReadsOnly (fs.isDirectory path)
  isFile : ∀ path, ReadsOnly (fs.isFile path)
  entries : ∀ path, ReadsOnly (fs.entries path)

/-- Questions to a tree of files change nothing in it. -/
theorem FileTree.quiet_system : FileTree.system.Quiet where
  pathExists _ _ := rfl
  isDirectory _ _ := rfl
  isFile _ _ := rfl
  entries path := by
    refine ReadsOnly.bind (fun _ => rfl) fun t => ?_
    split
    · exact .pure _
    · exact .pure []

namespace Glob

variable {fs : FileSystem (StateM σ)}

/-- Expanding a pattern from a path on changes nothing, by induction on the directories that may be
entered. -/
theorem readsOnly_expandFrom (h : fs.Quiet) (wantsDirectory : Bool) (fuel : Nat)
    (pieces : List (List GlobItem)) (path : String) :
    ReadsOnly (expandFrom fs wantsDirectory fuel pieces path) := by
  induction fuel generalizing pieces path with
  | zero => exact .pure []
  | succ fuel ih =>
    cases pieces with
    | nil => exact .pure []
    | cons piece more =>
      have hsettle (more : List (List GlobItem)) (path : String) : ReadsOnly
          (if !more.isEmpty then expandFrom fs wantsDirectory fuel more path
            else do if wantsDirectory && !(← fs.isDirectory path) then return [] else return [path]) :=
        .ite (ih _ _) (.bind (h.isDirectory path) fun _ => .ite (.pure _) (.pure _))
      rw [expandFrom]
      dsimp only
      split
      · next name _ =>
        split
        · exact (h.isDirectory path).bind fun _ => .ite (hsettle _ _) (.pure _)
        · exact (h.pathExists _).bind fun _ => .ite (hsettle _ _) (.pure _)
      · refine (h.isDirectory path).bind fun _ => .ite (.pure _) ((h.entries path).bind fun _ => ?_)
        refine (ReadsOnly.mapM (fun _ => hsettle _ _) _).bind fun _ =>
          (ReadsOnly.mapM (fun name => ?_) _).bind fun _ => .pure _
        refine .ite ((h.isDirectory _).bind fun goesOn => ?_) (.ite (hsettle _ _) (.pure _))
        have hinside (pieces : List (List GlobItem)) (path : String) (own : List String) : ReadsOnly
            (if goesOn then do return own ++ (← expandFrom fs wantsDirectory fuel pieces path)
              else do return own ++ (← pure [])) :=
          .ite ((ih _ _).bind fun _ => .pure _) (.pure _)
        split
        · exact .ite ((ReadsOnly.pure _).bind (hinside _ _)) ((ReadsOnly.pure _).bind (hinside _ _))
        · exact .ite ((hsettle _ _).bind (hinside _ _)) ((ReadsOnly.pure _).bind (hinside _ _))

/-- Expanding a pattern changes nothing. -/
theorem readsOnly_of_mem_expansion? (h : fs.Quiet) {text : String} {x : StateM σ (List String)}
    (hx : x ∈ expansion? fs text) : ReadsOnly x := by
  obtain ⟨glob, -, rfl⟩ := Option.map_eq_some_iff.1 hx
  exact readsOnly_expandFrom h _ _ _ _

end Glob

end Stencil
