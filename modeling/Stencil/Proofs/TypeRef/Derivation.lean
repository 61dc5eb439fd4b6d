import Stencil.TypeRef.Parser
import Stencil.Proofs.Token.Cursor

/-!
# The grammar of types

The declarative counterpart of the reader of types: which tokens are a type, one constructor for each
way to write one. `Derives` is the relation; names with full stops in them (`Dotted`), dimensions
(`Dims`) and lists with commas between their members (`Joined`) have relations of their own. The empty
angle brackets have a constructor of their own, because they leave no trace in the tree.
Proofs/TypeRef/Reading compares the relation with the reader.

What later proofs ask of the relation is said here. A type starts with a word (`Derives.first`), an
argument not with an angle bracket (`DerivesArgument.first`); a type is a type without dimensions and
then the dimensions (`Derives.element`, and back `Derives.addDims`). Only a type that ends in a name
can be continued by an angle bracket, and dimensions never end in one (`Dims.not_endsInName`).

**What it does not establish.** The relation does not determine the tokens: empty angle brackets may
stand behind a name or not, and spans are free.
-/

namespace Stencil

/-- The list of tokens is `parts`, with a comma between two neighbours. -/
inductive Joined : List Token → List (List Token) → Prop
  | none : Joined [] []
  | one (ts : List Token) : Joined ts [ts]
  | more {ts us vs : List Token} {parts : List (List Token)} (span : Span)
      (h : Joined us (vs :: parts)) :
      Joined (ts ++ ⟨.punctuation ',', span⟩ :: us) (ts :: vs :: parts)

/-- Joined parts start with the first of them. -/
theorem Joined.head {us vs : List Token} {parts : List (List Token)} (h : Joined us (vs :: parts)) :
    ∃ rest, us = vs ++ rest := by
  cases h with
  | one => exact ⟨[], (List.append_nil _).symm⟩
  | more span h => exact ⟨_, rfl⟩

/-- There are no more parts than tokens, if each part has one. -/
theorem Joined.length_le {us : List Token} {parts : List (List Token)} (h : Joined us parts)
    (hne : ∀ ts ∈ parts, ts ≠ []) : parts.length ≤ us.length := by
  induction h with
  | none => exact Nat.le_refl _
  | one ts => exact List.length_pos_iff.2 (hne ts (by simp))
  | more span h ih =>
    have hrest := ih fun ts hts => hne ts (List.mem_cons_of_mem _ hts)
    simp only [List.length_cons, List.length_append] at hrest ⊢
    omega

/-- The tokens of a part are among those of the whole. -/
theorem Joined.subset {us ts : List Token} {parts : List (List Token)} (h : Joined us parts)
    (hts : ts ∈ parts) : ts ⊆ us := by
  induction h with
  | none => cases hts
  | one ts =>
    obtain rfl := List.mem_singleton.1 hts
    exact fun _ => id
  | more span h ih =>
    intro t ht
    rcases List.mem_cons.1 hts with rfl | hts
    · exact List.mem_append_left _ ht
    · exact List.mem_append_right _ (List.mem_cons_of_mem _ (ih hts ht))

/-- The last token is an identifier. -/
def EndsInName (ts : List Token) : Prop :=
  ∃ name, ts.getLast?.map (·.lexeme) = some (.identifier name)

/-- Only the last token says whether tokens end in a name. -/
theorem endsInName_append_cons {ts us : List Token} {u : Token} :
    EndsInName (ts ++ u :: us) ↔ EndsInName (u :: us) := by
  rw [EndsInName, EndsInName, List.getLast?_append, List.getLast?_cons]
  rfl

/-- One token ends in a name if it is one. -/
theorem endsInName_singleton {t : Token} : EndsInName [t] ↔ ∃ name, t.lexeme = .identifier name := by
  simp [EndsInName]

namespace TypeRef

/-- The tokens continue the dotted name `name`, which is `full` in the end. -/
inductive Dotted : String → List Token → String → Prop
  | stop (name : String) : Dotted name [] name
  | dot {name part full : String} {ts : List Token} (s₁ s₂ : Span)
      (h : Dotted (name ++ "." ++ part) ts full) :
      Dotted name (⟨.punctuation '.', s₁⟩ :: ⟨.identifier part, s₂⟩ :: ts) full

/-- The tokens are a number of empty square brackets. -/
inductive Dims : List Token → Nat → Prop
  | none : Dims [] 0
  | dim {ts : List Token} {dims : Nat} (s₁ s₂ : Span) (h : Dims ts dims) :
      Dims (⟨.punctuation '[', s₁⟩ :: ⟨.punctuation ']', s₂⟩ :: ts) (dims + 1)

/-- The tokens are the wildcard. -/
def IsWildcard (p : List Token × TypeRef) : Prop :=
  p.2 = simple "?" ∧ ∃ span, p.1 = [⟨.sign .question, span⟩]

/-- The tokens are a type. -/
inductive Derives : List Token → TypeRef → Prop
  | primitive {word : Keyword} {name : String} {ds : List Token} {dims : Nat} (span : Span)
      (hword : word.typeName? = some name) (hdims : Dims ds dims) :
      Derives (⟨.keyword word, span⟩ :: ds) (.named name [] dims)
  | plain {name full : String} {ts ds : List Token} {dims : Nat} (span : Span)
      (hname : Dotted name ts full) (hdims : Dims ds dims) :
      Derives (⟨.identifier name, span⟩ :: (ts ++ ds)) (.named full [] dims)
  | diamond {name full : String} {ts ds : List Token} {dims : Nat} (span s₁ s₂ : Span)
      (hname : Dotted name ts full) (hdims : Dims ds dims) :
      Derives (⟨.identifier name, span⟩ ::
        (ts ++ ⟨.sign .less, s₁⟩ :: ⟨.sign .greater, s₂⟩ :: ds)) (.named full [] dims)
  | generic {name full : String} {ts us ds : List Token} {parts : List (List Token × TypeRef)}
      {dims : Nat} (span s₁ s₂ : Span) (hname : Dotted name ts full) (hne : parts ≠ [])
      (hjoined : Joined us (parts.map (·.1)))
      (hparts : ∀ p ∈ parts, ¬ IsWildcard p → Derives p.1 p.2) (hdims : Dims ds dims) :
      Derives (⟨.identifier name, span⟩ ::
        (ts ++ ⟨.sign .less, s₁⟩ :: (us ++ ⟨.sign .greater, s₂⟩ :: ds)))
        (.named full (parts.map (·.2)) dims)

/-- The tokens are a class type without dimensions. -/
structure DerivesClass (ts : List Token) (t : TypeRef) : Prop where
  derives : Derives ts t
  named : ∃ name args, t = .named name args 0
  first : ∃ name, ts.head?.map (·.lexeme) = some (.identifier name)

/-- Dimensions behind dimensions add up. -/
theorem Dims.append {ds es : List Token} {dims n : Nat} (h : Dims ds dims) (h' : Dims es n) :
    Dims (ds ++ es) (dims + n) := by
  induction h with
  | none => rwa [Nat.zero_add]
  | dim s₁ s₂ _ ih =>
    rw [Nat.add_right_comm]
    exact .dim s₁ s₂ ih

/-- A type with dimensions behind it is a type with more dimensions. -/
theorem Derives.addDims {ts ds : List Token} {t : TypeRef} {dims : Nat} (h : Derives ts t)
    (hdims : Dims ds dims) : Derives (ts ++ ds) (t.addDims dims) := by
  cases h with
  | primitive span hword h => exact .primitive span hword (h.append hdims)
  | plain span hname h =>
    rw [List.cons_append, List.append_assoc]
    exact .plain span hname (h.append hdims)
  | diamond span s₁ s₂ hname h =>
    rw [List.cons_append, List.append_assoc]
    exact .diamond span s₁ s₂ hname (h.append hdims)
  | @generic name full ts us ds' parts d span s₁ s₂ hname hne hjoined hparts h =>
    have heq : ⟨.identifier name, span⟩ ::
        (ts ++ ⟨.sign .less, s₁⟩ :: (us ++ ⟨.sign .greater, s₂⟩ :: ds')) ++ ds =
        ⟨.identifier name, span⟩ ::
          (ts ++ ⟨.sign .less, s₁⟩ :: (us ++ ⟨.sign .greater, s₂⟩ :: (ds' ++ ds))) := by simp
    rw [heq]
    exact .generic span s₁ s₂ hname hne hjoined hparts (h.append hdims)

theorem Derives.ne_nil {ts : List Token} {t : TypeRef} (h : Derives ts t) : ts ≠ [] := by
  cases h <;> simp

/-- A type starts with an identifier or with a reserved word that names a type. -/
theorem Derives.first {ts : List Token} {t : TypeRef} (h : Derives ts t) :
    ∃ u us, ts = u :: us ∧ ((∃ name, u.lexeme = .identifier name) ∨
      ∃ word, u.lexeme = .keyword word ∧ word.typeName?.isSome = true) := by
  cases h with
  | primitive span hword h => exact ⟨_, _, rfl, .inr ⟨_, rfl, by rw [hword]; rfl⟩⟩
  | plain | diamond | generic => exact ⟨_, _, rfl, .inl ⟨_, rfl⟩⟩

/-- A name with full stops in it ends in a name. -/
theorem Dotted.endsInName {name full : String} {ts : List Token} (h : Dotted name ts full)
    {u : Token} (hu : ∃ n, u.lexeme = .identifier n) : EndsInName (u :: ts) := by
  induction h generalizing u with
  | stop name => exact endsInName_singleton.2 hu
  | @dot name part full ts s₁ s₂ h ih =>
    have hskip : EndsInName ([u, ⟨.punctuation '.', s₁⟩] ++ ⟨.identifier part, s₂⟩ :: ts) ↔ _ :=
      endsInName_append_cons
    exact hskip.2 (ih ⟨part, rfl⟩)

/-- A type is a type without dimensions and then the dimensions. -/
theorem Derives.element {ts : List Token} {t : TypeRef} (h : Derives ts t) :
    ∃ es ds t₁ dims, ts = es ++ ds ∧ t = t₁.addDims dims ∧ Dims ds dims ∧
      ((∃ word span name, es = [⟨.keyword word, span⟩] ∧ word.typeName? = some name ∧
        t₁ = simple name) ∨ DerivesClass es t₁) := by
  have hnamed (name : String) (args : List TypeRef) (dims : Nat) :
      named name args dims = (named name args 0).addDims dims := by
    rw [TypeRef.addDims, Nat.zero_add]
  cases h with
  | @primitive word name ds dims span hword hdims =>
    exact ⟨_, ds, simple name, dims, (List.singleton_append ..).symm, hnamed .., hdims,
      .inl ⟨word, span, name, rfl, hword, rfl⟩⟩
  | @plain name full ts ds dims span hname hdims =>
    refine ⟨_, ds, simple full, dims, (List.cons_append ..).symm, hnamed .., hdims,
      .inr ⟨?_, ⟨full, [], rfl⟩, name, rfl⟩⟩
    simpa [simple] using Derives.plain span hname .none
  | @diamond name full ts ds dims span s₁ s₂ hname hdims =>
    refine ⟨⟨.identifier name, span⟩ :: (ts ++ [⟨.sign .less, s₁⟩, ⟨.sign .greater, s₂⟩]), ds,
      simple full, dims, by simp, hnamed .., hdims, .inr ⟨?_, ⟨full, [], rfl⟩, name, rfl⟩⟩
    exact .diamond span s₁ s₂ hname .none
  | @generic name full ts us ds parts dims span s₁ s₂ hname hne hjoined hparts hdims =>
    refine ⟨⟨.identifier name, span⟩ :: (ts ++ ⟨.sign .less, s₁⟩ :: (us ++ [⟨.sign .greater, s₂⟩])),
      ds, .named full (parts.map (·.2)) 0, dims, by simp, hnamed .., hdims,
      .inr ⟨?_, ⟨full, parts.map (·.2), rfl⟩, name, rfl⟩⟩
    exact .generic span s₁ s₂ hname hne hjoined hparts .none

/-- The tokens are a type argument. -/
def DerivesArgument (p : List Token × TypeRef) : Prop := ¬ IsWildcard p → Derives p.1 p.2

/-- A type argument does not start with an angle bracket. -/
theorem DerivesArgument.first {p : List Token × TypeRef} (h : DerivesArgument p) :
    ∃ u us, p.1 = u :: us ∧ u.lexeme ≠ .sign .greater := by
  by_cases hwild : IsWildcard p
  · obtain ⟨-, span, hts⟩ := hwild
    exact ⟨_, [], hts, by simp⟩
  · obtain ⟨u, us, hts, hu⟩ := (h hwild).first
    refine ⟨u, us, hts, ?_⟩
    rcases hu with ⟨_, hu⟩ | ⟨_, hu, -⟩ <;> simp [hu]

/-- Dimensions end in a bracket. -/
theorem Dims.not_endsInName {ds : List Token} {dims : Nat} (h : Dims ds dims) (hne : ds ≠ []) :
    ¬ EndsInName ds := by
  induction h with
  | none => exact absurd rfl hne
  | @dim ds dims s₁ s₂ h ih =>
    have hbracket : EndsInName (⟨.punctuation '[', s₁⟩ :: ⟨.punctuation ']', s₂⟩ :: ds) ↔
        EndsInName (⟨.punctuation ']', s₂⟩ :: ds) := @endsInName_append_cons [_] ds _
    rw [hbracket]
    cases ds with
    | nil => simp [endsInName_singleton]
    | cons d ds =>
      have hskip : EndsInName (⟨.punctuation ']', s₂⟩ :: d :: ds) ↔ EndsInName (d :: ds) :=
        @endsInName_append_cons [_] ds d
      rw [hskip]
      exact ih (by simp)

/-- What ends in dimensions does not end in a name. -/
theorem not_endsInName_of_dims {ts ds : List Token} {dims : Nat} (h : Dims ds dims) (hne : ds ≠ []) :
    ¬ EndsInName (ts ++ ds) := by
  obtain ⟨d, ds, rfl⟩ := List.exists_cons_of_ne_nil hne
  rw [endsInName_append_cons]
  exact h.not_endsInName hne

end TypeRef

end Stencil
