import Stencil.Proofs.TypeRef.Derivation

/-!
# Reading types, both ways

What the reader of types reads, the grammar derives (`parser_sound`); and what the grammar derives is
read, unless the text behind it continues the type (`parser_complete`). A type is continued by a full
stop, by an opening square bracket, and if it ends in a name by an angle bracket; the second statement
asks that none of these comes next, the first says that none does where it would.

The reader calls itself for the arguments of a type and counts down while it does. Both statements are
about a reader `nested` for the arguments, assumed to be right (`Sound`, `Complete`), and prove it of
the reader that is built from it, part by part: `Sound.argument`, `Sound.arguments`,
`Sound.classType`, `Sound.elementType`, `Sound.arrayType`, and the same with `Complete`. The induction
on the count then only puts these together. A complete reader needs a count as large as the tokens are
many.

**What it does not establish.** Nothing is said of the errors of the reader: tokens that are no type
are refused, but with which message is not told.
-/

namespace Stencil.TypeRef

variable {c c' : Cursor} {ts us ds : List Token} {name full : String} {dims n : Nat} {t : TypeRef}
  {parts : List (List Token × TypeRef)} {nested : Parser TypeRef}

/-! ## Names and dimensions -/

/-- What is read as a name with full stops is one. -/
theorem takes_of_dottedName {lastEnd : Nat} {tokens : List Token}
    (h : dottedName name lastEnd tokens = (full, c')) :
    ∃ ts, Cursor.Takes ⟨tokens, lastEnd⟩ ts c' ∧ Dotted name ts full := by
  fun_induction dottedName name lastEnd tokens with
  | case1 name lastEnd s₁ part span rest ih =>
    obtain ⟨ts, htakes, hname⟩ := ih h
    refine ⟨_, ?_, .dot s₁ span hname⟩
    exact .cons (Cursor.takes_head rfl) (.cons (Cursor.takes_head rfl) htakes)
  | case2 name lastEnd tokens _ =>
    obtain ⟨rfl, rfl⟩ := Prod.mk.inj h
    exact ⟨[], .refl _, .stop _⟩

/-- A name with full stops is read up to where none follows. -/
theorem dottedName_of_takes (hname : Dotted name ts full) (h : c.Takes ts c')
    (hnext : c'.next? ≠ some (.punctuation '.')) :
    dottedName name c.lastEnd c.tokens = (full, c') := by
  induction hname generalizing c with
  | stop name =>
    obtain rfl := (Cursor.Takes.refl c).det h
    rw [dottedName.eq_def]
    split
    · next htokens => simp [Cursor.next?, htokens] at hnext
    · rfl
  | dot s₁ s₂ _ ih =>
    obtain ⟨c₁, h₁, h⟩ := h.uncons
    obtain ⟨c₂, h₂, h⟩ := h.uncons
    rw [h₁.tokens_cons, h₂.tokens_cons, dottedName, ← h₂.stop_eq]
    exact ih h

/-- What is read as dimensions are some. -/
theorem takes_of_arrayDims {lastEnd : Nat} {tokens : List Token}
    (h : arrayDims lastEnd tokens = (dims, c')) :
    ∃ ds, Cursor.Takes ⟨tokens, lastEnd⟩ ds c' ∧ Dims ds dims := by
  fun_induction arrayDims lastEnd tokens generalizing dims c' with
  | case1 lastEnd s₁ span rest dims' c₁ heq ih =>
    obtain ⟨rfl, rfl⟩ := Prod.mk.inj h
    obtain ⟨ds, htakes, hdims⟩ := ih heq
    refine ⟨_, ?_, .dim s₁ span hdims⟩
    exact .cons (Cursor.takes_head rfl) (.cons (Cursor.takes_head rfl) htakes)
  | case2 lastEnd tokens _ =>
    obtain ⟨rfl, rfl⟩ := Prod.mk.inj h
    exact ⟨[], .refl _, .none⟩

/-- Dimensions are read up to where no bracket follows. -/
theorem arrayDims_of_takes (hdims : Dims ds dims) (h : c.Takes ds c')
    (hnext : c'.next? ≠ some (.punctuation '[')) :
    arrayDims c.lastEnd c.tokens = (dims, c') := by
  induction hdims generalizing c with
  | none =>
    obtain rfl := (Cursor.Takes.refl c).det h
    rw [arrayDims.eq_def]
    split
    · next htokens => simp [Cursor.next?, htokens] at hnext
    · rfl
  | dim s₁ s₂ _ ih =>
    obtain ⟨c₁, h₁, h⟩ := h.uncons
    obtain ⟨c₂, h₂, h⟩ := h.uncons
    rw [h₁.tokens_cons, h₂.tokens_cons, arrayDims, ← h₂.stop_eq, ih h]

/-! ## Arguments -/

/-- What a reader of nested types takes is a type. -/
def Sound (nested : Parser TypeRef) : Prop :=
  ∀ c t c', nested c = .ok (t, c') →
    ∃ ts, c.Takes ts c' ∧ Derives ts t ∧ (EndsInName ts → c'.next? ≠ some (.sign .less))

/-- What is read as an argument is a wildcard or a type. -/
theorem Sound.argument (h : Sound nested)
    (hread : argument nested c = .ok (t, c')) :
    ∃ ts, c.Takes ts c' ∧ DerivesArgument (ts, t) := by
  unfold TypeRef.argument at hread
  split at hread
  · next c₁ hsign =>
    obtain ⟨rfl, rfl⟩ := Prod.mk.inj (Except.ok.inj hread)
    obtain ⟨span, htakes⟩ := Cursor.sign?_eq_some.1 hsign
    exact ⟨_, htakes, fun hnot => absurd ⟨rfl, span, rfl⟩ hnot⟩
  · obtain ⟨ts, htakes, hderives, -⟩ := h c t c' hread
    exact ⟨ts, htakes, fun _ => hderives⟩

/-- What is read as arguments are some, with commas between them. -/
theorem Sound.arguments (h : Sound nested) {args : List TypeRef}
    (hread : arguments nested n c = .ok (args, c')) :
    ∃ us parts, c.Takes us c' ∧ parts ≠ [] ∧ Joined us (parts.map (·.1)) ∧
      args = parts.map (·.2) ∧ ∀ p ∈ parts, DerivesArgument p := by
  induction n generalizing c args with
  | zero =>
    obtain ⟨⟨t, c₁⟩, harg, hread⟩ := bind_eq_ok.1 hread
    obtain ⟨rfl, rfl⟩ := Prod.mk.inj (Except.ok.inj hread)
    obtain ⟨ts, htakes, hderives⟩ := h.argument harg
    exact ⟨ts, [(ts, t)], htakes, by simp, .one ts, rfl, by simpa using hderives⟩
  | succ n ih =>
    obtain ⟨⟨t, c₁⟩, harg, hread⟩ := bind_eq_ok.1 hread
    obtain ⟨ts, htakes, hderives⟩ := h.argument harg
    simp only at hread
    split at hread
    · next c₂ hcomma =>
      obtain ⟨span, h₂⟩ := Cursor.punctuation?_eq_some.1 hcomma
      obtain ⟨⟨args', c₃⟩, hargs, hread⟩ := bind_eq_ok.1 hread
      obtain ⟨rfl, rfl⟩ := Prod.mk.inj (Except.ok.inj hread)
      obtain ⟨us, parts, h₃, hne, hjoined, rfl, hparts⟩ := ih hargs
      obtain ⟨p, parts, rfl⟩ := List.exists_cons_of_ne_nil hne
      refine ⟨_, (ts, t) :: p :: parts, htakes.trans (h₂.cons h₃), by simp,
        .more span hjoined, rfl, ?_⟩
      exact List.forall_mem_cons.2 ⟨hderives, hparts⟩
    · obtain ⟨rfl, rfl⟩ := Prod.mk.inj (Except.ok.inj hread)
      exact ⟨ts, [(ts, t)], htakes, by simp, .one ts, rfl, by simpa using hderives⟩

/-- What is read as a class is one, and if it ends in a name, no angle bracket follows. -/
theorem Sound.classType (h : Sound nested)
    (hread : classType nested c = .ok (t, c')) :
    ∃ ts, c.Takes ts c' ∧ DerivesClass ts t ∧ (EndsInName ts → c'.next? ≠ some (.sign .less)) := by
  obtain ⟨⟨name, c₁⟩, hname, hread⟩ := bind_eq_ok.1 hread
  obtain ⟨span, h₁⟩ := Cursor.identifier_eq_ok.1 hname
  simp only at hread
  rcases hdotted : dottedName name c₁.lastEnd c₁.tokens with ⟨full, c₂⟩
  obtain ⟨ts, h₂, hdots⟩ := takes_of_dottedName hdotted
  have h₂ : c.Takes (⟨.identifier name, span⟩ :: ts) c₂ := h₁.cons h₂
  -- A type that ends in `>` does not end in its name, so nothing is asked of what follows.
  have hends (us : List Token) (s : Span) (hends : EndsInName (us ++ [⟨.sign .greater, s⟩])) :
      c'.next? ≠ some (.sign .less) := by
    simp [endsInName_append_cons, endsInName_singleton] at hends
  rw [hdotted] at hread
  simp only at hread
  split at hread
  · next hless =>
    obtain ⟨rfl, rfl⟩ := Prod.mk.inj (Except.ok.inj hread)
    refine ⟨_, h₂, ⟨?_, ⟨full, [], rfl⟩, name, rfl⟩, fun _ => Cursor.sign?_eq_none.1 hless⟩
    simpa [simple] using Derives.plain span hdots .none
  · next c₃ hless =>
    obtain ⟨s₁, h₃⟩ := Cursor.sign?_eq_some.1 hless
    split at hread
    · next c₄ hgreater =>
      obtain ⟨s₂, h₄⟩ := Cursor.sign?_eq_some.1 hgreater
      obtain ⟨rfl, rfl⟩ := Prod.mk.inj (Except.ok.inj hread)
      refine ⟨_, (h₂.trans h₃).trans h₄, ⟨?_, ⟨full, [], rfl⟩, name, rfl⟩, hends _ s₂⟩
      simpa [simple] using Derives.diamond span s₁ s₂ hdots .none
    · obtain ⟨⟨args, c₄⟩, hargs, hread⟩ := bind_eq_ok.1 hread
      obtain ⟨us, parts, h₄, hne, hjoined, rfl, hparts⟩ := h.arguments hargs
      simp only at hread
      split at hread
      · next c₅ hgreater =>
        obtain ⟨s₂, h₅⟩ := Cursor.sign?_eq_some.1 hgreater
        obtain ⟨rfl, rfl⟩ := Prod.mk.inj (Except.ok.inj hread)
        refine ⟨_, ((h₂.trans h₃).trans h₄).trans h₅, ⟨?_, ⟨full, parts.map (·.2), rfl⟩, name, rfl⟩,
          hends _ s₂⟩
        simpa using Derives.generic span s₁ s₂ hdots hne hjoined hparts .none
      · cases hread

/-- A type without its dimensions. -/
def elementType (nested : Parser TypeRef) : Parser TypeRef := fun c =>
  match c.tokens with
  | ⟨.keyword word, span⟩ :: rest =>
    match word.typeName? with
    | some name => .ok (simple name, ⟨rest, span.stop⟩)
    | none => TypeRef.classType nested c
  | _ => TypeRef.classType nested c

/-- A type is read without its dimensions first. -/
theorem arrayType_eq (nested : Parser TypeRef) (c : Cursor) :
    arrayType nested c = (elementType nested c >>= fun r =>
      .ok (r.1.addDims (arrayDims r.2.lastEnd r.2.tokens).1,
        (arrayDims r.2.lastEnd r.2.tokens).2)) := by
  unfold TypeRef.arrayType elementType
  cases c.tokens with
  | nil => rfl
  | cons t rest =>
    obtain ⟨l, span⟩ := t
    cases l with
    | keyword word =>
      simp only
      cases word.typeName? <;> rfl
    | _ => rfl

/-- What is read as a type without dimensions is one. -/
theorem Sound.elementType (h : Sound nested) :
    Sound (elementType nested) := by
  intro c t c' hread
  have hclass (hread : TypeRef.classType nested c = .ok (t, c')) : ∃ ts, c.Takes ts c' ∧
      Derives ts t ∧ (EndsInName ts → c'.next? ≠ some (.sign .less)) := by
    obtain ⟨ts, htakes, hderives, hends⟩ := h.classType hread
    exact ⟨ts, htakes, hderives.derives, hends⟩
  unfold TypeRef.elementType at hread
  split at hread
  · next word span rest htokens =>
    split at hread
    · next name hword =>
      obtain ⟨rfl, rfl⟩ := Prod.mk.inj (Except.ok.inj hread)
      refine ⟨_, Cursor.takes_head htokens, .primitive span hword .none, ?_⟩
      simp [endsInName_singleton]
    · exact hclass hread
  · exact hclass hread

/-- What is read as a type is one. -/
theorem Sound.arrayType (h : Sound nested) :
    Sound (arrayType nested) := by
  intro c t c' hread
  rw [arrayType_eq] at hread
  obtain ⟨⟨t₁, c₁⟩, hfirst, hread⟩ := bind_eq_ok.1 hread
  obtain ⟨ts, h₁, hderives, hends⟩ := h.elementType c t₁ c₁ hfirst
  rcases hdims : arrayDims c₁.lastEnd c₁.tokens with ⟨dims, c₂⟩
  obtain ⟨ds, h₂, hds⟩ := takes_of_arrayDims hdims
  simp only [hdims] at hread
  obtain ⟨rfl, rfl⟩ := Prod.mk.inj (Except.ok.inj hread)
  refine ⟨ts ++ ds, h₁.trans h₂, hderives.addDims hds, ?_⟩
  by_cases hnil : ds = []
  · subst hnil
    obtain rfl := (Cursor.Takes.refl _).det h₂
    simpa using hends
  · exact fun hname => absurd hname (not_endsInName_of_dims hds hnil)

/-- **What the reader of types reads is a type**, by induction on how deep it may go. -/
theorem parser_sound (n : Nat) : Sound (parser n) := by
  induction n with
  | zero => exact fun _ _ _ h => nomatch h
  | succ n ih => exact ih.arrayType

/-! ## What is derived is read -/

/-- Every type of at most `n` tokens is read, unless what follows continues it. -/
def Complete (n : Nat) (nested : Parser TypeRef) : Prop :=
  ∀ c ts t c', ts.length ≤ n → c.Takes ts c' → Derives ts t →
    c'.next? ≠ some (.punctuation '.') → c'.next? ≠ some (.punctuation '[') →
    (EndsInName ts → c'.next? ≠ some (.sign .less)) → nested c = .ok (t, c')

/-- An argument is read in front of a comma or of the closing bracket. -/
theorem Complete.argument (h : Complete n nested) {p : List Token × TypeRef} (hlen : p.1.length ≤ n)
    (htakes : c.Takes p.1 c') (hp : DerivesArgument p)
    (hnext : c'.next? = some (.punctuation ',') ∨ c'.next? = some (.sign .greater)) :
    argument nested c = .ok (p.2, c') := by
  unfold TypeRef.argument
  by_cases hwild : IsWildcard p
  · obtain ⟨ht, span, hts⟩ := hwild
    rw [Cursor.sign?_eq_some.2 ⟨span, hts ▸ htakes⟩, ht]
  · have hderives := hp hwild
    have hquestion : c.sign? .question = none := by
      rw [Cursor.sign?_eq_none]
      obtain ⟨u, us, hus, hfirst⟩ := hderives.first
      rw [hus] at htakes
      rw [htakes.next?]
      rcases hfirst with ⟨_, hu⟩ | ⟨_, hu, -⟩ <;> simp [hu]
    rw [hquestion]
    refine h c p.1 p.2 c' hlen htakes hderives ?_ ?_ fun _ => ?_ <;>
      rcases hnext with hnext | hnext <;> simp [hnext]

/-- Arguments are read up to the closing bracket. -/
theorem Complete.arguments (h : Complete n nested) {m : Nat} (hne : parts ≠ [])
    (hm : parts.length ≤ m + 1) (hlen : us.length ≤ n) (htakes : c.Takes us c')
    (hjoined : Joined us (parts.map (·.1))) (hparts : ∀ p ∈ parts, DerivesArgument p)
    (hnext : c'.next? = some (.sign .greater)) :
    arguments nested m c = .ok (parts.map (·.2), c') := by
  -- The count goes down with every comma, so as many as there are parts are enough.
  induction parts generalizing c us m with
  | nil => exact absurd rfl hne
  | cons p parts ih =>
    have hp := hparts p (by simp)
    cases parts with
    | nil =>
      cases hjoined
      have harg := h.argument hlen htakes hp (.inr hnext)
      cases m with
      | zero => rw [TypeRef.arguments, harg]; rfl
      | succ m =>
        have hcomma : c'.punctuation? ',' = none := by
          rw [Cursor.punctuation?_eq_none, hnext]
          simp
        rw [TypeRef.arguments, harg]
        simp only [bind, Except.bind, hcomma]
        rfl
    | cons q parts =>
      cases hjoined with
      | @more _ us' _ _ span hjoined =>
        obtain ⟨c₁, h₁, htakes⟩ := htakes.split
        obtain ⟨c₂, h₂, htakes⟩ := htakes.uncons
        have hlen : p.1.length + (us'.length + 1) ≤ n := by simpa using hlen
        have harg := h.argument (by omega) h₁ hp (.inl h₂.next?)
        cases m with
        | zero => simp at hm
        | succ m =>
          have hrest := ih (by simp) (by simpa using hm) (by omega) htakes hjoined
            fun r hr => hparts r (List.mem_cons_of_mem _ hr)
          rw [TypeRef.arguments, harg]
          simp only [bind, Except.bind, Cursor.punctuation?_eq_some.2 ⟨span, h₂⟩, hrest]
          rfl

/-- A class is read if neither a full stop nor, behind a name, an angle bracket follows. -/
theorem Complete.classType (h : Complete n nested) (hlen : ts.length ≤ n + 1)
    (htakes : c.Takes ts c') (hderives : DerivesClass ts t)
    (hdot : c'.next? ≠ some (.punctuation '.'))
    (hless : EndsInName ts → c'.next? ≠ some (.sign .less)) :
    classType nested c = .ok (t, c') := by
  obtain ⟨hderives, ⟨_, _, hdims⟩, first, hfirst⟩ := hderives
  -- One case for each way to write a type; a class is written in the last three, without dimensions.
  cases hderives with
  | primitive => simp at hfirst
  | @plain name full ts ds _ span hname hds =>
    obtain ⟨-, -, rfl⟩ := TypeRef.named.inj hdims
    cases hds
    rw [List.append_nil] at htakes hless
    obtain ⟨c₁, h₁, htakes⟩ := htakes.uncons
    have hnext := Cursor.sign?_eq_none.2 (hless (hname.endsInName ⟨name, rfl⟩))
    rw [TypeRef.classType, Cursor.identifier_eq_ok.2 ⟨span, h₁⟩]
    simp only [bind, Except.bind, dottedName_of_takes hname htakes hdot, hnext]
    rfl
  | @diamond name full ts ds _ span s₁ s₂ hname hds =>
    obtain ⟨-, -, rfl⟩ := TypeRef.named.inj hdims
    cases hds
    obtain ⟨c₁, h₁, htakes⟩ := htakes.uncons
    obtain ⟨c₂, h₂, htakes⟩ := htakes.split
    obtain ⟨c₃, h₃, h₄⟩ := htakes.uncons
    have hdots := dottedName_of_takes hname h₂ (by simp [h₃.next?])
    rw [TypeRef.classType, Cursor.identifier_eq_ok.2 ⟨span, h₁⟩]
    simp only [bind, Except.bind, hdots, Cursor.sign?_eq_some.2 ⟨s₁, h₃⟩,
      Cursor.sign?_eq_some.2 ⟨s₂, h₄⟩]
    rfl
  | @generic name full ts us ds parts _ span s₁ s₂ hname hne hjoined hparts hds =>
    obtain ⟨-, -, rfl⟩ := TypeRef.named.inj hdims
    cases hds
    obtain ⟨c₁, h₁, htakes⟩ := htakes.uncons
    obtain ⟨c₂, h₂, htakes⟩ := htakes.split
    obtain ⟨c₃, h₃, htakes⟩ := htakes.uncons
    obtain ⟨c₄, h₄, h₅⟩ := htakes.split
    have hlen : ts.length + (us.length + 1 + 1) ≤ n := by simpa using hlen
    have hdots := dottedName_of_takes hname h₂ (by simp [h₃.next?])
    have hgreater : c₃.sign? .greater = none := by
      obtain ⟨p, parts, rfl⟩ := List.exists_cons_of_ne_nil hne
      obtain ⟨rest, hus⟩ : ∃ rest, us = p.1 ++ rest := hjoined.head
      obtain ⟨u, vs, hp, hu⟩ := DerivesArgument.first (hparts p (by simp))
      rw [hus, hp] at h₄
      rw [Cursor.sign?_eq_none, h₄.next?]
      simpa using hu
    have hcount : parts.length ≤ c₃.tokens.length + 1 := by
      have hle := hjoined.length_le fun ts hts => by
        obtain ⟨p, hp, rfl⟩ := List.mem_map.1 hts
        obtain ⟨u, us, hp, -⟩ := DerivesArgument.first (hparts p hp)
        simp [hp]
      have hus := h₄.length_le
      rw [List.length_map] at hle
      omega
    have hargs := h.arguments hne hcount (by omega) h₄ hjoined hparts h₅.next?
    rw [TypeRef.classType, Cursor.identifier_eq_ok.2 ⟨span, h₁⟩]
    simp only [bind, Except.bind, hdots, Cursor.sign?_eq_some.2 ⟨s₁, h₃⟩, hgreater, hargs,
      Cursor.sign?_eq_some.2 ⟨s₂, h₅⟩]
    rfl

/-- A reserved word that names a type is read as that. -/
theorem elementType_of_keyword {word : Keyword} {span : Span} (hword : word.typeName? = some name)
    (h : c.Takes [⟨.keyword word, span⟩] c') : elementType nested c = .ok (simple name, c') := by
  rw [elementType, h.tokens_cons]
  simp only [hword]
  rw [← h.stop_eq]

/-- Dimensions are read behind a type without any. -/
theorem arrayType_of_element {c₁ : Cursor} (helement : elementType nested c = .ok (t, c₁))
    (hdims : Dims ds dims) (h : c₁.Takes ds c') (hnext : c'.next? ≠ some (.punctuation '[')) :
    arrayType nested c = .ok (t.addDims dims, c') := by
  rw [arrayType_eq, helement]
  simp only [bind, Except.bind, arrayDims_of_takes hdims h hnext]

/-- A primitive type is read in front of a full stop, too. -/
theorem read_of_keyword {word : Keyword} {span : Span} (hword : word.typeName? = some name)
    (hdims : Dims ds dims) (h : c.Takes (⟨.keyword word, span⟩ :: ds) c')
    (hnext : c'.next? ≠ some (.punctuation '[')) : read c = .ok (.named name [] dims, c') := by
  obtain ⟨c₁, h₁, h₂⟩ := h.uncons
  refine (arrayType_of_element (elementType_of_keyword hword h₁) hdims h₂ hnext).trans ?_
  rw [simple, addDims, Nat.zero_add]

/-- A type is read if nothing behind it continues it. -/
theorem Complete.arrayType (h : Complete n nested) : Complete (n + 1) (arrayType nested) := by
  intro c ts t c' hlen htakes hderives hdot hbracket hless
  obtain ⟨es, ds, t₁, dims, rfl, rfl, hdims, hfirst⟩ := hderives.element
  obtain ⟨c₁, h₁, h₂⟩ := htakes.split
  have helement : elementType nested c = .ok (t₁, c₁) := by
    rcases hfirst with ⟨word, span, name, rfl, hword, rfl⟩ | hclass
    · exact elementType_of_keyword hword h₁
    · obtain ⟨first, hes⟩ := hclass.first
      have hnext : ds = [] ∧ c₁ = c' ∨ c₁.next? = some (.punctuation '[') := by
        cases hdims with
        | none => exact .inl ⟨rfl, (Cursor.Takes.refl _).det h₂⟩
        | dim => exact .inr h₂.next?
      have hread := h.classType (by rw [List.length_append] at hlen; omega) h₁ hclass
        (by rcases hnext with ⟨-, rfl⟩ | hnext <;> simp_all)
        (by rcases hnext with ⟨rfl, rfl⟩ | hnext <;> simp_all)
      rw [elementType]
      split
      · next htokens =>
        obtain ⟨u, us, rfl⟩ := List.exists_cons_of_ne_nil hclass.derives.ne_nil
        rw [h₁.tokens] at htokens
        obtain ⟨rfl, -⟩ := List.cons.inj htokens
        simp at hes
      · exact hread
  exact arrayType_of_element helement hdims h₂ hbracket

/-- **What is a type is read as it**, by induction on how deep the reader may go. -/
theorem parser_complete (n : Nat) : Complete n (parser n) := by
  induction n with
  | zero =>
    intro c ts t c' hlen _ hderives
    exact absurd (List.eq_nil_of_length_eq_zero (Nat.le_zero.1 hlen)) hderives.ne_nil
  | succ n ih => exact ih.arrayType

end Stencil.TypeRef
