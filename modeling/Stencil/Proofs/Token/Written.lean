import Stencil.Proofs.Token.Spelling

/-!
# Printed lexemes

A printer writes lexemes, some of them with a blank in front (`Written`). The text that comes of it is
read from left to right, and gives the lexemes back unless one runs into the next: two plus signs, two
minus signs, or an integer and the point behind it (`Clash`).

**The law** has two halves. `readFrom_texts`: readable lexemes that do not clash are read as
themselves, at the places where they were written. `not_clash`: readable lexemes whose text is read as
the same lexemes do not clash. Readable means that a lexeme is valid and the one behind it does not
continue it for any other reason than a clash; that holds of everything the printers write
(`Readable`, with one lemma for each kind of lexeme in front of others). For the second half a clash
makes the reader take another lexeme in place of the first (`ne_of_clashes`), and no later one makes
up for that.

Printers leave out one thing that readers accept, empty angle brackets. `Elides` says which brackets a
printer left out, `Sheds` that this is nothing where the tokens have no such brackets.

**What it does not establish.** Which expressions and types print lexemes that clash is told with
them.
-/

namespace Stencil

open Text (byteSize isBlank)

/-- A lexeme of a printed text, and whether a blank stands before it. -/
structure Written where
  spaced : Bool
  lexeme : Lexeme
  deriving DecidableEq, Repr

namespace Written

/-- The text of a lexeme. -/
def text (w : Written) : List Char := (if w.spaced then [' '] else []) ++ w.lexeme.spelling

/-- The text of several lexemes. -/
def texts (ws : List Written) : List Char := ws.flatMap text

@[simp] theorem texts_nil : texts [] = [] := rfl

@[simp] theorem texts_cons (w : Written) (ws : List Written) : texts (w :: ws) = w.text ++ texts ws :=
  rfl

@[simp] theorem texts_append (ws vs : List Written) : texts (ws ++ vs) = texts ws ++ texts vs :=
  List.flatMap_append

/-- The tokens have the lexemes, and touch where no blank is written. -/
def Spells : List Written → List Token → Prop
  | [], [] => True
  | w :: ws, t :: ts =>
    t.lexeme = w.lexeme ∧
      (∀ v u, ws.head? = some v → ts.head? = some u → v.spaced = false → t.touches u = true) ∧
      Spells ws ts
  | _, _ => False

/-- The lexeme runs into the text behind it. -/
def Clashes (l : Lexeme) (rest : List Char) : Prop :=
  (l = .sign .plus ∧ rest.head? = some '+') ∨ (l = .sign .minus ∧ rest.head? = some '-') ∨
    ∃ s, l = .number s ∧ NumberLiteral.isWhole s.toList = true ∧ rest.head? = some '.'

/-- One of the lexemes runs into the next, or the last one into the text behind it. -/
def Clash : List Written → List Char → Prop
  | [], _ => False
  | w :: ws, rest => Clashes w.lexeme (texts ws ++ rest) ∨ Clash ws rest

/-- The lexemes are valid, and none runs into the text behind it in an unknown way. -/
def Readable : List Written → List Char → Prop
  | [], _ => True
  | w :: ws, rest =>
    w.lexeme.Valid ∧
      ((∀ c, (texts ws ++ rest).head? = some c → w.lexeme.Delimits c) ∨
        Clashes w.lexeme (texts ws ++ rest)) ∧
      Readable ws rest

/-- The text behind a name, a type or an expression does not continue it. -/
def Ends (rest : List Char) : Prop :=
  ∀ c, rest.head? = some c → Text.isIdentifierPart c = false ∧ c ≠ '='

/-- A blank, a bracket, a full stop, a comma, and the signs plus and minus end a word. -/
theorem ends_of_mem {c : Char} (h : c ∈ [' ', '.', '(', ')', '[', ']', '<', '>', ',', '+', '-'])
    (rest : List Char) : Ends (c :: rest) := by
  have hall : [' ', '.', '(', ')', '[', ']', '<', '>', ',', '+', '-'].all (fun d =>
      !Text.isIdentifierPart d && d != '=') = true := by decide +kernel
  have hc := List.all_eq_true.1 hall c h
  rintro d ⟨⟩
  simpa using hc

/-- A clash is within the front, where the front meets the back, or within the back. -/
theorem clash_append {ws vs : List Written} {rest : List Char} :
    Clash (ws ++ vs) rest ↔ Clash ws (texts vs ++ rest) ∨ Clash vs rest := by
  induction ws with
  | nil => simp [Clash]
  | cons w ws ih =>
    rw [List.cons_append, Clash, Clash, ih, texts_append, List.append_assoc, or_assoc]

/-- Lexemes are readable if those in front are, in front of the others, and the others are. -/
theorem readable_append {ws vs : List Written} {rest : List Char} :
    Readable (ws ++ vs) rest ↔ Readable ws (texts vs ++ rest) ∧ Readable vs rest := by
  induction ws with
  | nil => simp [Readable]
  | cons w ws ih =>
    rw [List.cons_append, Readable, Readable, ih, texts_append, List.append_assoc, and_assoc,
      and_assoc]

/-! ## Blanks and commas -/

/-- The lexemes with a blank before the first. -/
def space : List Written → List Written
  | [] => []
  | w :: ws => ⟨true, w.lexeme⟩ :: ws

/-- The lists of lexemes with a comma and a blank between two neighbours. -/
def separated : List (List Written) → List Written
  | [] => []
  | [ws] => ws
  | ws :: vs :: rest => ws ++ ⟨false, .punctuation ','⟩ :: space (separated (vs :: rest))

/-- There is a first lexeme, and no blank before it. -/
def Fronted (ws : List Written) : Prop := ∃ l vs, ws = ⟨false, l⟩ :: vs

section

variable {w : Written} {ws vs : List Written} {ts : List Token} {rest : List Char}

/-- What starts with a lexeme without a blank still does with more behind it. -/
theorem Fronted.append (h : Fronted ws) (vs : List Written) : Fronted (ws ++ vs) := by
  obtain ⟨l, us, rfl⟩ := h
  exact ⟨l, us ++ vs, rfl⟩

/-- A blank in front changes no lexeme. -/
@[simp] theorem lexemes_space (ws : List Written) :
    (space ws).map (·.lexeme) = ws.map (·.lexeme) := by
  cases ws <;> rfl

/-- A blank in front is the first character of the text. -/
theorem texts_space (h : Fronted ws) : texts (space ws) = ' ' :: texts ws := by
  obtain ⟨l, vs, rfl⟩ := h
  rfl

/-- A blank in front makes no clash. -/
@[simp] theorem clash_space : Clash (space ws) rest ↔ Clash ws rest := by
  cases ws <;> rfl

/-- A blank in front makes nothing unreadable. -/
@[simp] theorem readable_space : Readable (space ws) rest ↔ Readable ws rest := by
  cases ws <;> rfl

/-- A blank in front is no token. -/
@[simp] theorem spells_space : Spells (space ws) ts ↔ Spells ws ts := by
  cases ws <;> cases ts <;> rfl

/-- Nothing is spelled by no tokens. -/
theorem Spells.eq_nil (h : Spells [] ts) : ts = [] := by
  cases ts with
  | nil => rfl
  | cons t ts => cases h

/-- The first lexeme is the first token. -/
theorem Spells.uncons (h : Spells (w :: ws) ts) :
    ∃ span us, ts = ⟨w.lexeme, span⟩ :: us ∧ Spells ws us := by
  cases ts with
  | nil => cases h
  | cons t ts =>
    obtain ⟨l, span⟩ := t
    obtain ⟨hl, -, hrest⟩ := h
    obtain rfl : l = w.lexeme := hl
    exact ⟨span, ts, rfl, hrest⟩

/-- The tokens of two parts are those of the first and those of the second. -/
theorem Spells.split (h : Spells (ws ++ vs) ts) :
    ∃ us us', ts = us ++ us' ∧ Spells ws us ∧ Spells vs us' := by
  induction ws generalizing ts with
  | nil => exact ⟨[], ts, rfl, trivial, h⟩
  | cons w ws ih =>
    cases ts with
    | nil => cases h
    | cons t ts =>
      obtain ⟨hl, htouch, hrest⟩ := h
      obtain ⟨us, us', rfl, hws, hvs⟩ := ih hrest
      refine ⟨t :: us, us', rfl, ⟨hl, fun v u hv hu => ?_, hws⟩, hvs⟩
      exact htouch v u (by simp [hv]) (by simp [hu])

/-- The last lexeme is the last token. -/
theorem Spells.unsnoc (h : Spells (ws ++ [w]) ts) :
    ∃ us span, ts = us ++ [⟨w.lexeme, span⟩] ∧ Spells ws us := by
  obtain ⟨us, vs, rfl, hws, hlast⟩ := h.split
  obtain ⟨span, vs, rfl, hnil⟩ := hlast.uncons
  exact ⟨us, span, by rw [hnil.eq_nil], hws⟩

/-- The tokens have the lexemes that were written. -/
theorem Spells.lexemes (h : Spells ws ts) : ts.map (·.lexeme) = ws.map (·.lexeme) := by
  induction ws generalizing ts with
  | nil => rw [h.eq_nil, List.map_nil, List.map_nil]
  | cons w ws ih =>
    obtain ⟨span, us, rfl, hrest⟩ := h.uncons
    rw [List.map_cons, List.map_cons, ih hrest]

/-- A blank ends a word. -/
theorem Fronted.ends_space (h : Fronted ws) (rest : List Char) : Ends (texts (space ws) ++ rest) := by
  rw [texts_space h]
  exact ends_of_mem (by decide) _

/-- A punctuation character in front, a full stop apart. -/
theorem Readable.punctuation {spaced : Bool} {p : Char} (hp : Step.isPunctuation p = true)
    (hdot : p ≠ '.') (h : Readable ws rest) :
    Readable (⟨spaced, .punctuation p⟩ :: ws) rest :=
  ⟨hp, Or.inl fun _ _ heq => absurd heq hdot, h⟩

/-- A keyword in front of what ends a word. -/
theorem Readable.keyword {spaced : Bool} {word : Keyword} (hends : Ends (texts ws ++ rest))
    (h : Readable ws rest) : Readable (⟨spaced, .keyword word⟩ :: ws) rest :=
  ⟨trivial, Or.inl fun c hc => (hends c hc).1, h⟩

/-- A name in front of what ends a word. -/
theorem Readable.identifier {spaced : Bool} {name : String} (hname : Token.IsName name)
    (hends : Ends (texts ws ++ rest)) (h : Readable ws rest) :
    Readable (⟨spaced, .identifier name⟩ :: ws) rest :=
  ⟨hname, Or.inl fun c hc => (hends c hc).1, h⟩

/-- A word starts with a character that continues no sign, number or full stop. -/
theorem exists_of_isIdentifier {cs : List Char} (h : Text.isIdentifier cs = true) :
    ∃ c ds, cs = c :: ds ∧ c.isDigit = false ∧ c ∉ ['+', '-', '<', '>', '=', '.'] := by
  cases cs with
  | nil => cases h
  | cons c ds =>
    simp only [Text.isIdentifier, Bool.and_eq_true] at h
    have hall : ['+', '-', '<', '>', '=', '.'].all (!Text.isIdentifierStart ·) = true := by
      decide +kernel
    refine ⟨c, ds, rfl, ?_, fun hc => ?_⟩
    · rw [Bool.eq_false_iff]
      intro hdigit
      rw [(Step.not_isIdentifierStart_of_isDigit hdigit).1] at h
      cases h.1
    · have hstart := List.all_eq_true.1 hall c hc
      rw [h.1] at hstart
      cases hstart

/-- A full stop in front of a word, which starts with no digit. -/
theorem Readable.dot {spaced : Bool} {l : Lexeme} (hword : Text.isIdentifier l.spelling = true)
    (h : Readable (⟨false, l⟩ :: ws) rest) :
    Readable (⟨spaced, .punctuation '.'⟩ :: ⟨false, l⟩ :: ws) rest := by
  obtain ⟨c, ds, heq, hdigit, -⟩ := exists_of_isIdentifier hword
  refine ⟨rfl, Or.inl fun d hd _ => ?_, h⟩
  rw [texts_cons, text, heq] at hd
  obtain rfl := Option.some.inj hd
  exact hdigit

/-- A full stop and a name in front of what ends a word. -/
theorem Readable.field {name : String} (hname : Token.IsName name)
    (hends : Ends (texts ws ++ rest)) (h : Readable ws rest) :
    Readable (⟨false, .punctuation '.'⟩ :: ⟨false, .identifier name⟩ :: ws) rest :=
  .dot hname.1 (.identifier hname hends h)

/-- Lists with commas between them start with the first lexeme of the first list. -/
theorem separated_cons (w : Written) (ws : List Written) (wss : List (List Written)) :
    ∃ vs, separated ((w :: ws) :: wss) = w :: vs := by
  cases wss <;> exact ⟨_, rfl⟩

/-- Lists with commas between them start without a blank if the first list does. -/
theorem fronted_separated {wss : List (List Written)} (h : Fronted ws) :
    Fronted (separated (ws :: wss)) := by
  obtain ⟨l, vs, rfl⟩ := h
  exact ⟨l, separated_cons _ vs wss⟩

/-- Lists with commas between them are written as their texts, joined by a comma and a blank. -/
theorem texts_separated {wss : List (List Written)} (h : ∀ ws ∈ wss, Fronted ws) :
    texts (separated wss) =
      (Text.joinWith ", " (wss.map fun ws => String.ofList (texts ws))).toList := by
  induction wss with
  | nil => rfl
  | cons ws wss ih =>
    cases wss with
    | nil => simp [separated, Text.joinWith]
    | cons vs rest =>
      rw [separated, texts_append, texts_cons, texts_space (fronted_separated (h vs (by simp))),
        ih fun us hus => h us (List.mem_cons_of_mem _ hus)]
      simp [Text.joinWith, text, Lexeme.spelling]

end

/-! ## Empty angle brackets -/

/-- The tokens have the lexemes, and `n` pairs of empty angle brackets besides. -/
inductive Elides : Nat → List Token → List Lexeme → Prop
  | nil : Elides 0 [] []
  | keep {n : Nat} {ts : List Token} {ls : List Lexeme} (t : Token) (h : Elides n ts ls) :
      Elides n (t :: ts) (t.lexeme :: ls)
  | drop {n : Nat} {ts : List Token} {ls : List Lexeme} (s₁ s₂ : Span) (h : Elides n ts ls) :
      Elides (n + 1) (⟨.sign .less, s₁⟩ :: ⟨.sign .greater, s₂⟩ :: ts) ls

/-- Whether the lexeme is an angle bracket. -/
def isAngle (l : Lexeme) : Bool := l = .sign .less || l = .sign .greater

namespace Elides

variable {n m : Nat} {ts us : List Token} {ls ks : List Lexeme}

/-- Brackets that are left out of two parts are left out of the whole. -/
theorem append (h : Elides n ts ls) (h' : Elides m us ks) : Elides (n + m) (ts ++ us) (ls ++ ks) := by
  induction h with
  | nil => rwa [Nat.zero_add]
  | keep t _ ih => exact .keep t ih
  | drop s₁ s₂ _ ih =>
    rw [Nat.add_right_comm]
    exact .drop s₁ s₂ ih

/-- Nothing is left out of tokens that are all written. -/
theorem refl (ts : List Token) : Elides 0 ts (ts.map (·.lexeme)) := by
  induction ts with
  | nil => exact .nil
  | cons t ts ih => exact .keep t ih

/-- What is written is among the tokens, in their order. -/
theorem sublist (h : Elides n ts ls) : ls.Sublist (ts.map (·.lexeme)) := by
  induction h with
  | nil => exact List.Sublist.refl []
  | keep t _ ih => exact ih.cons_cons _
  | drop s₁ s₂ _ ih => exact (ih.cons _).cons _

/-- Only angle brackets are left out. -/
theorem filter_eq (h : Elides n ts ls) :
    (ts.map (·.lexeme)).filter (!isAngle ·) = ls.filter (!isAngle ·) := by
  induction h with
  | nil => rfl
  | keep t _ ih => rw [List.map_cons, List.filter_cons, List.filter_cons, ih]
  | drop s₁ s₂ _ ih => exact ih

/-- The first lexeme stays unless it is a bracket. -/
theorem head?_eq (h : Elides n ts ls) (hfirst : ts.head?.map (·.lexeme) ≠ some (.sign .less)) :
    ls.head? = ts.head?.map (·.lexeme) := by
  cases h with
  | nil | keep => rfl
  | drop => exact absurd rfl hfirst

end Elides

/-- The lexemes are those of the tokens but for empty angle brackets, and if there are none of these,
`q` holds. -/
def Sheds (q : Prop) (ts : List Token) (ls : List Lexeme) : Prop :=
  ∃ n, Elides n ts ls ∧ (n = 0 → q)

namespace Sheds

variable {q r : Prop} {ts us : List Token} {ls ks : List Lexeme}

/-- Where every token stays, what is known of the tokens is known of the lexemes. -/
theorem refl (ts : List Token) (h : q) : Sheds q ts (ts.map (·.lexeme)) :=
  ⟨0, .refl ts, fun _ => h⟩

/-- What follows from the promise can be promised. -/
theorem imp (h : Sheds q ts ls) (hqr : q → r) : Sheds r ts ls := by
  obtain ⟨n, hn, hq⟩ := h
  exact ⟨n, hn, fun hzero => hqr (hq hzero)⟩

/-- A token that stays. -/
theorem keep (t : Token) (h : Sheds q ts ls) : Sheds q (t :: ts) (t.lexeme :: ls) := by
  obtain ⟨n, hn, hq⟩ := h
  exact ⟨n, .keep t hn, hq⟩

/-- Behind a pair of empty angle brackets nothing is promised any more. -/
theorem drop (s₁ s₂ : Span) (h : Sheds q ts ls) :
    Sheds r (⟨.sign .less, s₁⟩ :: ⟨.sign .greater, s₂⟩ :: ts) ls := by
  obtain ⟨n, hn, -⟩ := h
  exact ⟨n + 1, .drop s₁ s₂ hn, nofun⟩

/-- No brackets in the whole means none in either part. -/
theorem append (h : Sheds q ts ls) (h' : Sheds r us ks) :
    Sheds (q ∧ r) (ts ++ us) (ls ++ ks) := by
  obtain ⟨n, hn, hq⟩ := h
  obtain ⟨m, hm, hr⟩ := h'
  refine ⟨n + m, hn.append hm, fun hzero => ?_⟩
  obtain ⟨hnone, hmnone⟩ := Nat.add_eq_zero_iff.1 hzero
  exact ⟨hq hnone, hr hmnone⟩

/-- Tokens that stay can be put in front. -/
theorem front (us : List Token) (h : Sheds q ts ls) :
    Sheds q (us ++ ts) (us.map (·.lexeme) ++ ls) :=
  ((refl us trivial).append h).imp And.right

/-- Tokens that stay can be put behind. -/
theorem behind (h : Sheds q ts ls) (us : List Token) :
    Sheds q (ts ++ us) (ls ++ us.map (·.lexeme)) :=
  (h.append (refl us trivial)).imp And.left

end Sheds

/-! ## Lexemes that do not clash -/

variable {size : Nat} {l : Lexeme} {w : Written} {ws : List Written} {rest : List Char}
  {ts : List Token}

/-- A blank in front of a lexeme is passed over. -/
theorem readFrom_text (size : Nat) (w : Written) (rest : List Char) :
    Token.readFrom size (w.text ++ rest) = Token.readFrom size (w.lexeme.spelling ++ rest) := by
  rw [text, List.append_assoc]
  cases w.spaced with
  | false => rfl
  | true => exact Token.readFrom_blank (by decide)

/-- A lexeme that is read in front of a text becomes the first token of the two. -/
theorem readFrom_spelling (size : Nat) (h : Step.Reads l rest) :
    Token.readFrom size (l.spelling ++ rest) =
      (⟨l, size - byteSize (l.spelling ++ rest), size - byteSize rest⟩ ::
        (Token.readFrom size rest).1, (Token.readFrom size rest).2) := by
  obtain ⟨c, cs, heq, hc, hs⟩ := h
  rw [heq]
  exact Token.readFrom_lexeme size (by simp [hc]) hs

/-- Readable lexemes that do not clash are read as themselves; the first of them, if no blank is in
front, stands where the text starts. -/
theorem readFrom_texts (size : Nat) (h : Readable ws []) (hclash : ¬ Clash ws []) :
    ∃ ts, Token.readFrom size (texts ws) = (ts, none) ∧ Spells ws ts ∧
      ∀ v u, ws.head? = some v → ts.head? = some u → v.spaced = false →
        u.span.start = size - byteSize (texts ws) := by
  induction ws with
  | nil => exact ⟨[], Token.readFrom_nil size, trivial, by simp⟩
  | cons w ws ih =>
    obtain ⟨hvalid, hbehind, hws⟩ := h
    rw [Clash, not_or] at hclash
    rw [List.append_nil] at hbehind hclash
    obtain ⟨ts, hts, hspells, hstart⟩ := ih hws hclash.2
    have hread := readFrom_spelling size
      (Step.reads_of_delimits hvalid (hbehind.resolve_right hclash.1))
    rw [← readFrom_text, hts] at hread
    refine ⟨_, hread, ⟨rfl, ?_, hspells⟩, ?_⟩
    · intro v u hv hu hspaced
      rw [Token.touches, hstart v u hv hu hspaced]
      exact beq_self_eq_true _
    · rintro _ _ ⟨⟩ ⟨⟩ hspaced
      rw [texts_cons, text, hspaced]
      rfl

/-! ## Lexemes that clash -/

/-- Where a lexeme clashes, the character behind it continues it. -/
theorem not_delimits_of_clashes (h : Clashes l rest) :
    ¬ ∀ c, rest.head? = some c → l.Delimits c := by
  intro hdelimits
  rcases h with ⟨rfl, hc⟩ | ⟨rfl, hc⟩ | ⟨s, rfl, hs, hc⟩
  · exact hdelimits '+' hc (by decide)
  · exact hdelimits '-' hc (by decide)
  · rw [(hdelimits '.' hc).2 rfl] at hs
    cases hs

/-- A lexeme that runs into the text behind it is not read. -/
theorem ne_of_clashes (hvalid : l.Valid) (h : Clashes l rest)
    (hread : Token.readFrom size (l.spelling ++ rest) = (ts, none)) :
    ∃ u us, ts = u :: us ∧ u.lexeme ≠ l ∧ isAngle u.lexeme = false ∧ isAngle l = false := by
  obtain ⟨d, cs, hrest⟩ : ∃ d cs, rest = d :: cs := by
    cases rest with
    | nil => rcases h with ⟨-, hc⟩ | ⟨-, hc⟩ | ⟨-, -, -, hc⟩ <;> cases hc
    | cons d cs => exact ⟨d, cs, rfl⟩
  subst hrest
  rcases h with ⟨rfl, hc⟩ | ⟨rfl, hc⟩ | ⟨s, rfl, hs, hc⟩
  · obtain rfl := Option.some.inj hc
    have hstep : step '+' ('+' :: cs) = .lexeme (.sign .plusPlus) cs := rfl
    have hfront := Token.readFrom_lexeme size (by decide) hstep
    obtain ⟨rfl, -⟩ := Prod.mk.inj (hread.symm.trans hfront)
    exact ⟨_, _, rfl, by simp, rfl, rfl⟩
  · obtain rfl := Option.some.inj hc
    have hstep : step '-' ('-' :: cs) = .lexeme (.sign .minusMinus) cs := rfl
    have hfront := Token.readFrom_lexeme size (by decide) hstep
    obtain ⟨rfl, -⟩ := Prod.mk.inj (hread.symm.trans hfront)
    exact ⟨_, _, rfl, by simp, rfl, rfl⟩
  · obtain rfl := Option.some.inj hc
    obtain ⟨hscan, c, ds, heq, hstart⟩ := hvalid
    obtain ⟨hblank, hstep⟩ := Step.step_number (Step.startsNumber_append hstart ('.' :: cs))
    have htext : (Lexeme.number s).spelling ++ '.' :: cs = c :: (ds ++ '.' :: cs) := by
      rw [Lexeme.spelling, heq]
      rfl
    rw [htext] at hread
    rw [Step.number] at hstep
    split at hstep
    · next r hr =>
      have hfront := Token.readFrom_lexeme size (by simp [hblank]) hstep
      obtain ⟨rfl, -⟩ := Prod.mk.inj (hread.symm.trans hfront)
      refine ⟨_, _, rfl, ?_, rfl, rfl⟩
      intro hsame
      obtain ⟨us, hus, -⟩ := NumberLiteral.scan_relocate hr
      have hspelling := congrArg String.toList (Lexeme.number.inj hsame)
      rw [hus, List.length_append, Nat.add_sub_cancel, List.take_left, String.toList_ofList,
        heq] at hspelling
      -- all that is read would be the literal, but the point is read into it
      obtain rfl : '.' :: cs = r := by
        rw [hspelling] at hus
        exact List.append_cancel_left (List.cons.inj hus).2
      rw [← List.cons_append, ← heq] at hr
      exact NumberLiteral.not_scan_of_isWhole hs hr
    · rw [Token.readFrom_fault size (by simp [hblank]) hstep] at hread
      cases hread
    · rw [Token.readFrom_fault size (by simp [hblank]) hstep] at hread
      cases hread

/-- If the text of readable lexemes is read as these lexemes, angle brackets apart, none of them
clashes. -/
theorem not_clash (h : Readable ws []) (hread : Token.readFrom size (texts ws) = (ts, none))
    (hsame : (ts.map (·.lexeme)).filter (!isAngle ·) = (ws.map (·.lexeme)).filter (!isAngle ·)) :
    ¬ Clash ws [] := by
  -- The first lexeme that clashes would be read as another one, and the lexemes in front of it are
  -- read as themselves.
  induction ws generalizing ts with
  | nil => exact id
  | cons w ws ih =>
    obtain ⟨hvalid, hbehind, hws⟩ := h
    rw [List.append_nil] at hbehind
    rw [texts_cons, readFrom_text] at hread
    rcases hbehind with hdelimits | hclash
    · rw [readFrom_spelling size (Step.reads_of_delimits hvalid hdelimits)] at hread
      obtain ⟨rfl, hrest⟩ := Prod.mk.inj hread
      rw [Clash, not_or, List.append_nil]
      refine ⟨fun hclash => not_delimits_of_clashes hclash hdelimits,
        ih hws (Prod.ext rfl hrest) ?_⟩
      rw [List.map_cons, List.map_cons, List.filter_cons, List.filter_cons] at hsame
      split at hsame
      · exact (List.cons.inj hsame).2
      · exact hsame
    · obtain ⟨u, us, rfl, hne, hu, hw⟩ := ne_of_clashes hvalid hclash hread
      rw [List.map_cons, List.map_cons, List.filter_cons_of_pos (by simp [hu]),
        List.filter_cons_of_pos (by simp [hw])] at hsame
      exact absurd (List.cons.inj hsame).1 hne

end Written

end Stencil
