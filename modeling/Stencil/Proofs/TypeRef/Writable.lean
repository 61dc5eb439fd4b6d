import Stencil.Proofs.TypeRef.Written

/-!
# Types that can be written

Which types are read from some text, stated on the types themselves: names of classes with arguments
that can be written, and reserved words without any (`Writable`). A tree that comes from elsewhere,
and not from a text, is printed and read again if its types are of this form.

`Writable.derives` says that the lexemes such a type is printed as are tokens of the type,
`Writable.valid` that all of them can be read, and `Writable.derivesClass` that those of a class are a
class, which a creation asks for. So everything that is shown of tokens of a type applies to them. The
tokens have no places of their own; they get the empty span, as no relation here looks at spans.

The name of a class is split at its full stops, and each part must be a name (`IsClassName.dotted`).

**What it does not establish.** That every type that is read can be written is not needed and not
shown; types that are read are known by their tokens.
-/

namespace Stencil

open Token (IsName wordLexeme)

namespace Written

/-- The lexemes as tokens. They touch each other, and have no place in a text. -/
def tokens (ws : List Written) : List Token := ws.map fun w => ⟨w.lexeme, ⟨0, 0⟩⟩

/-- The lexemes are such that some text is read as them. -/
def Valid (ws : List Written) : Prop := ∀ w ∈ ws, w.lexeme.Valid

variable {ws vs : List Written} {wss : List (List Written)}

@[simp] theorem tokens_nil : tokens [] = [] := rfl

@[simp] theorem tokens_cons (w : Written) (ws : List Written) :
    tokens (w :: ws) = ⟨w.lexeme, ⟨0, 0⟩⟩ :: tokens ws := rfl

/-- The tokens of what is written one after the other. -/
@[simp] theorem tokens_append (ws vs : List Written) : tokens (ws ++ vs) = tokens ws ++ tokens vs :=
  List.map_append

@[simp] theorem tokens_space (ws : List Written) : tokens (space ws) = tokens ws := by
  cases ws <;> rfl

@[simp] theorem valid_nil : Valid [] := nofun

/-- All lexemes are valid if the first is and the others are. -/
@[simp] theorem valid_cons {w : Written} : Valid (w :: ws) ↔ w.lexeme.Valid ∧ Valid ws :=
  List.forall_mem_cons

/-- All lexemes are valid if those in front are and those behind are. -/
@[simp] theorem valid_append : Valid (ws ++ vs) ↔ Valid ws ∧ Valid vs := List.forall_mem_append

/-- A blank in front makes no lexeme invalid. -/
@[simp] theorem valid_space : Valid (space ws) ↔ Valid ws := by
  cases ws with
  | nil => rfl
  | cons w ws => rw [space, valid_cons, valid_cons]

/-- Commas between valid lexemes are valid. -/
theorem valid_separated (h : ∀ ws ∈ wss, Valid ws) : Valid (separated wss) := by
  induction wss with
  | nil => exact valid_nil
  | cons ws wss ih =>
    cases wss with
    | nil => exact h ws (by simp)
    | cons vs wss =>
      have hrest := ih fun us hus => h us (List.mem_cons_of_mem _ hus)
      exact valid_append.2 ⟨h ws (by simp), valid_cons.2 ⟨rfl, valid_space.2 hrest⟩⟩

/-- The tokens of valid lexemes are valid. -/
theorem valid_of_mem_tokens (h : Valid ws) : ∀ t ∈ tokens ws, t.lexeme.Valid := by
  intro t ht
  obtain ⟨w, hw, rfl⟩ := List.mem_map.1 ht
  exact h w hw

/-- What is written with commas between its parts has tokens with commas between the parts. -/
theorem joined_tokens (wss : List (List Written)) :
    Joined (tokens (separated wss)) (wss.map tokens) := by
  induction wss with
  | nil => exact .none
  | cons ws wss ih =>
    cases wss with
    | nil => exact .one _
    | cons vs wss =>
      rw [separated, tokens_append, tokens_cons, tokens_space]
      exact .more _ ih

end Written

open Written (Valid tokens separated texts)

namespace TypeRef

/-- The name of a class: identifiers that are not reserved, with points between them. -/
def IsClassName (name : String) : Prop :=
  ∀ part ∈ Text.splitOnChar '.' name.toList, IsName (String.ofList part)

instance (name : String) : Decidable (IsClassName name) :=
  inferInstanceAs (Decidable (∀ part ∈ Text.splitOnChar '.' name.toList, IsName (String.ofList part)))

/-- The type can be written: a reserved word has no arguments, and the arguments of a class can be
written or are the wildcard. -/
inductive Writable : TypeRef → Prop
  | ofWord {word : Keyword} {name : String} (hword : word.typeName? = some name) (dims : Nat) :
      Writable (.named name [] dims)
  | ofClass {name : String} {args : List TypeRef} (hname : IsClassName name)
      (hargs : ∀ t ∈ args, t ≠ simple "?" → Writable t) (dims : Nat) :
      Writable (.named name args dims)

variable {name : String} {t : TypeRef} {dims : Nat}

/-! ## Names and dimensions -/

/-- Names with full stops between them are a dotted name. -/
theorem dotted_partsWritten (front : String) (part : List Char) (parts : List (List Char))
    (hparts : ∀ p ∈ part :: parts, IsName (String.ofList p)) :
    Dotted front (⟨.punctuation '.', ⟨0, 0⟩⟩ :: tokens (partsWritten (part :: parts)))
      (front ++ "." ++ String.ofList (texts (partsWritten (part :: parts)))) := by
  have hpart : wordLexeme (String.ofList part) = .identifier (String.ofList part) :=
    Token.wordLexeme_of_isName (hparts part (by simp))
  induction parts generalizing front part with
  | nil =>
    have hdot := Dotted.dot ⟨0, 0⟩ ⟨0, 0⟩ (.stop (front ++ "." ++ String.ofList part))
    simpa [partsWritten, hpart, Written.text, Lexeme.spelling] using hdot
  | cons next parts ih =>
    have hnext : wordLexeme (String.ofList next) = .identifier (String.ofList next) :=
      Token.wordLexeme_of_isName (hparts next (by simp))
    have htail := ih (front ++ "." ++ String.ofList part) next
      (fun p hp => hparts p (List.mem_cons_of_mem _ hp)) hnext
    have htext : front ++ "." ++ String.ofList part ++ "." ++
        String.ofList (texts (partsWritten (next :: parts))) =
        front ++ "." ++ String.ofList (texts (partsWritten (part :: next :: parts))) := by
      apply String.toList_injective
      simp [partsWritten, hpart, Written.text, Lexeme.spelling]
    rw [htext] at htail
    have hdot := Dotted.dot ⟨0, 0⟩ ⟨0, 0⟩ htail
    rw [← hpart] at hdot
    exact hdot

/-- The name of a class is no wildcard. -/
theorem ne_wildcard_of_isClassName (h : IsClassName name) : name ≠ "?" := by
  rintro rfl
  exact absurd h (by decide +kernel)

/-- The lexemes of the name of a class are tokens of a dotted name. -/
theorem IsClassName.dotted (h : IsClassName name) :
    ∃ first ts, tokens (nameWritten name) = ⟨.identifier first, ⟨0, 0⟩⟩ :: ts ∧
      Dotted first ts name := by
  rw [nameWritten, if_neg (ne_wildcard_of_isClassName h)]
  have htexts := texts_partsWritten name.toList
  obtain ⟨part, parts, hsplit⟩ := List.exists_cons_of_ne_nil (Text.splitOnChar_ne_nil '.' name.toList)
  rw [IsClassName, hsplit] at h
  rw [hsplit] at htexts ⊢
  have hpart : wordLexeme (String.ofList part) = .identifier (String.ofList part) :=
    Token.wordLexeme_of_isName (h part (by simp))
  refine ⟨String.ofList part, (tokens (partsWritten (part :: parts))).tail, ?_, ?_⟩
  · cases parts <;> simp [partsWritten, hpart]
  · cases parts with
    | nil =>
      have hname : name = String.ofList part := by
        apply String.toList_injective
        simpa [partsWritten, hpart, Written.text, Lexeme.spelling] using htexts.symm
      rw [hname]
      exact .stop _
    | cons next parts =>
      have hname : String.ofList part ++ "." ++
          String.ofList (texts (partsWritten (next :: parts))) = name := by
        apply String.toList_injective
        simpa [partsWritten, hpart, Written.text, Lexeme.spelling] using htexts
      have hdotted := dotted_partsWritten (String.ofList part) next parts fun p hp =>
        h p (List.mem_cons_of_mem _ hp)
      rw [hname] at hdotted
      exact hdotted

/-- Names with full stops between them are valid lexemes. -/
theorem valid_partsWritten {parts : List (List Char)}
    (h : ∀ p ∈ parts, IsName (String.ofList p)) : Valid (partsWritten parts) := by
  have hword {p : List Char} (hp : IsName (String.ofList p)) :
      (wordLexeme (String.ofList p)).Valid := by
    rw [Token.wordLexeme_of_isName hp]
    exact hp
  induction parts with
  | nil => exact Written.valid_nil
  | cons part parts ih =>
    have hpart := hword (h part (by simp))
    cases parts with
    | nil => exact Written.valid_cons.2 ⟨hpart, Written.valid_nil⟩
    | cons next parts =>
      have hrest := ih fun p hp => h p (List.mem_cons_of_mem _ hp)
      exact Written.valid_cons.2 ⟨hpart, Written.valid_cons.2 ⟨rfl, hrest⟩⟩

/-- The lexemes of the name of a class are valid. -/
theorem IsClassName.valid (h : IsClassName name) : Valid (nameWritten name) := by
  rw [nameWritten, if_neg (ne_wildcard_of_isClassName h)]
  exact valid_partsWritten h

/-- Printed dimensions are tokens of dimensions. -/
theorem dims_tokens (dims : Nat) : Dims (tokens (dimsWritten dims)) dims := by
  induction dims with
  | zero => exact .none
  | succ dims ih => exact .dim _ _ ih

/-- Printed dimensions are valid lexemes. -/
theorem valid_dimsWritten (dims : Nat) : Valid (dimsWritten dims) := by
  induction dims with
  | zero => exact Written.valid_nil
  | succ dims ih => exact Written.valid_cons.2 ⟨rfl, Written.valid_cons.2 ⟨rfl, ih⟩⟩

/-! ## Types -/

/-- Every lexeme of a type that can be written is valid. -/
theorem Writable.valid (h : t.Writable) : Valid t.written := by
  induction h with
  | ofWord hword dims =>
    rw [written, nameWritten_of_typeName? hword]
    exact Written.valid_cons.2 ⟨trivial, valid_dimsWritten dims⟩
  | @ofClass name args hname _ dims ih =>
    cases args with
    | nil =>
      rw [written]
      exact Written.valid_append.2 ⟨hname.valid, valid_dimsWritten dims⟩
    | cons arg args =>
      have hargs : ∀ ws ∈ (arg :: args).map written, Valid ws := by
        intro ws hws
        obtain ⟨u, hu, rfl⟩ := List.mem_map.1 hws
        by_cases hwild : u = simple "?"
        · rw [hwild]
          exact Written.valid_cons.2 ⟨trivial, Written.valid_nil⟩
        · exact ih u hu hwild
      rw [written_generic (by simp)]
      refine Written.valid_append.2 ⟨hname.valid, Written.valid_cons.2 ⟨trivial, ?_⟩⟩
      refine Written.valid_append.2 ⟨Written.valid_separated hargs, ?_⟩
      exact Written.valid_cons.2 ⟨trivial, valid_dimsWritten dims⟩

/-- The lexemes of a type that can be written are tokens of the type. -/
theorem Writable.derives (h : t.Writable) : Derives (tokens t.written) t := by
  induction h with
  | ofWord hword dims =>
    rw [written, nameWritten_of_typeName? hword]
    exact .primitive _ hword (dims_tokens dims)
  | @ofClass name args hname _ dims ih =>
    obtain ⟨first, ts, htokens, hdotted⟩ := hname.dotted
    cases args with
    | nil =>
      rw [written, Written.tokens_append, htokens]
      exact .plain _ hdotted (dims_tokens dims)
    | cons arg args =>
      let parts := (arg :: args).map fun u => (tokens u.written, u)
      have htypes : parts.map (·.2) = arg :: args := by simp [parts, Function.comp_def]
      have hjoined : Joined (tokens (separated ((arg :: args).map written))) (parts.map (·.1)) := by
        have hall := Written.joined_tokens ((arg :: args).map written)
        rwa [List.map_map] at hall ⊢
      have hparts : ∀ p ∈ parts, ¬ IsWildcard p → Derives p.1 p.2 := by
        intro p hp hwild
        obtain ⟨u, hu, rfl⟩ := List.mem_map.1 hp
        refine ih u hu fun hu => hwild ?_
        rw [hu]
        exact ⟨rfl, ⟨0, 0⟩, rfl⟩
      have hne : parts ≠ [] := List.cons_ne_nil _ _
      have hgeneric := Derives.generic ⟨0, 0⟩ ⟨0, 0⟩ ⟨0, 0⟩ hdotted hne hjoined hparts
        (dims_tokens dims)
      rw [htypes] at hgeneric
      rw [written_generic (by simp), Written.tokens_append, htokens, Written.tokens_cons,
        Written.tokens_append, Written.tokens_cons]
      exact hgeneric

/-- The lexemes of a class that can be written are tokens of the class. -/
theorem Writable.derivesClass {args : List TypeRef} (h : (named name args 0).Writable)
    (hname : IsClassName name) : DerivesClass (tokens (named name args 0).written)
      (named name args 0) := by
  refine ⟨h.derives, ⟨name, args, rfl⟩, ?_⟩
  obtain ⟨first, ts, htokens, -⟩ := hname.dotted
  have hwritten : ∃ vs, (named name args 0).written = nameWritten name ++ vs := by
    cases args with
    | nil => exact ⟨_, rfl⟩
    | cons arg args => exact ⟨_, rfl⟩
  obtain ⟨vs, hwritten⟩ := hwritten
  rw [hwritten, Written.tokens_append, htokens]
  exact ⟨first, rfl⟩

end TypeRef

end Stencil
