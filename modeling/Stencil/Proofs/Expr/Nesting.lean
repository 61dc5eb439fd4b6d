import Stencil.Proofs.Expr.Part
import Stencil.Proofs.Token.Coverage

/-!
# Where the nodes of an expression stand

**The law** (`parse_wellPlaced`): the nodes of an expression that was read stand in the text as the
tree says. Each node spans from its first token to its last one and cuts a piece out of the source; a
node lies around its children, and these stand one behind the other (`WellPlaced`); and the whole
expression goes from the first token of the text to the last one.

Every node spans the tokens it was read from (`Derives.span_eq`), so what is said of the spans of a
tree follows from the order of the tokens alone. Tokens that stand in order (`Token.InOrder`) have
covers that are ordered as the lists are: the cover of some of them lies in the cover of all
(`InOrder.cover_sublist`), and covers of parts that follow each other do so too
(`InOrder.pairwise_cover`). A node has its children's tokens among its own, in order (`Derives.pieces`
in Proofs/Expr/Part), which gives `Derives.wellPlaced` and, for all parts, `Derives.all_wellPlaced`.

**What it does not establish.** Between a node and its children may stand tokens of its own; which
these are is told by the grammar and not by spans.
-/

namespace Stencil

namespace Token

variable {source : List Char} {ts us vs : List Token} {t : Token}

/-- The tokens stand in the source one behind the other. -/
structure InOrder (source : List Char) (ts : List Token) : Prop where
  cuts : ∀ t ∈ ts, t.span.Cuts source
  behind : ts.Pairwise fun t u => t.span.stop ≤ u.span.start

/-- The tokens of a text stand in it one behind the other. -/
theorem inOrder_of_read {text : String} (h : readFrom text.utf8ByteSize text.toList = (ts, none)) :
    InOrder text.toList ts := by
  have hcovers : Covers text.toList 0 ts none := by
    have hread := covers_readFrom (List.suffix_refl text.toList)
    rwa [Text.byteSize_toList, h, Nat.sub_self] at hread
  have hspans : spans ts none = ts.map (·.span) := List.append_nil _
  refine ⟨fun t ht => ?_, ?_⟩
  · have hfits := hcovers.fits t.span (hspans ▸ List.mem_map_of_mem ht)
    exact ⟨hfits.start, hfits.stop, hcovers.proper t ht⟩
  · have hincreasing := hcovers.increasing
    rw [hspans, List.pairwise_map] at hincreasing
    exact hincreasing.imp And.right

/-- Some of the tokens that stand in order stand in order. -/
theorem InOrder.sublist (h : InOrder source ts) (hus : us.Sublist ts) : InOrder source us :=
  ⟨fun t ht => h.cuts t (hus.subset ht), h.behind.sublist hus⟩

/-- The span of tokens starts with one of them. -/
theorem exists_start_cover (hne : ts ≠ []) : ∃ t ∈ ts, t.span.start = (cover ts).start := by
  cases ts with
  | nil => exact absurd rfl hne
  | cons t ts => exact ⟨t, List.mem_cons_self, rfl⟩

/-- The span of tokens stops with one of them. -/
theorem exists_stop_cover (hne : ts ≠ []) : ∃ t ∈ ts, t.span.stop = (cover ts).stop := by
  refine ⟨ts.getLast hne, List.getLast_mem hne, ?_⟩
  rw [cover, endOf, List.getLast?_eq_getLast_of_ne_nil hne]
  rfl

/-- Each token lies in the span of all. -/
theorem InOrder.mem_cover (h : InOrder source ts) (ht : t ∈ ts) :
    (cover ts).start ≤ t.span.start ∧ t.span.stop ≤ (cover ts).stop := by
  obtain ⟨before, after, rfl⟩ := List.append_of_mem ht
  have hbehind := List.pairwise_append.1 h.behind
  constructor
  · cases before with
    | nil => exact Nat.le_refl _
    | cons first before =>
      have hfirst := (h.cuts first (by simp)).proper
      have hle := hbehind.2.2 first List.mem_cons_self t List.mem_cons_self
      exact Nat.le_trans (Nat.le_of_lt hfirst) hle
  · rw [cover, endOf, List.getLast?_append_cons, List.getLast?_cons]
    cases hlast : after.getLast? with
    | none => exact Nat.le_refl _
    | some last =>
      have hmem : last ∈ after := List.mem_of_getLast? hlast
      have hproper := (h.cuts last (by simp [hmem])).proper
      have hle := (List.pairwise_cons.1 hbehind.2.1).1 last hmem
      exact Nat.le_trans hle (Nat.le_of_lt hproper)

/-- The span of some of the tokens lies in the span of all. -/
theorem InOrder.cover_sublist (h : InOrder source ts) (hus : us.Sublist ts) (hne : us ≠ []) :
    (cover ts).start ≤ (cover us).start ∧ (cover us).stop ≤ (cover ts).stop := by
  obtain ⟨t, ht, hstart⟩ := exists_start_cover hne
  obtain ⟨u, hu, hstop⟩ := exists_stop_cover hne
  rw [← hstart, ← hstop]
  exact ⟨(h.mem_cover (hus.subset ht)).1, (h.mem_cover (hus.subset hu)).2⟩

/-- The span of tokens cuts a piece out of the source. -/
theorem InOrder.cuts_cover (h : InOrder source ts) (hne : ts ≠ []) : (cover ts).Cuts source := by
  obtain ⟨t, ht, hstart⟩ := exists_start_cover hne
  obtain ⟨u, hu, hstop⟩ := exists_stop_cover hne
  have hproper := (h.cuts t ht).proper
  have hle := (h.mem_cover ht).2
  refine ⟨hstart ▸ (h.cuts t ht).start, hstop ▸ (h.cuts u hu).stop, ?_⟩
  omega

/-- The spans of parts that follow each other. -/
theorem InOrder.pairwise_cover {parts : List (List Token)} (h : InOrder source parts.flatten)
    (hne : ∀ us ∈ parts, us ≠ []) : (parts.map cover).Pairwise fun a b =>
      a.start < b.start ∧ a.stop ≤ b.start := by
  have hcover : ∀ us ∈ parts, (cover us).Cuts source := fun us hus =>
    (h.sublist (List.sublist_flatten_of_mem hus)).cuts_cover (hne us hus)
  rw [List.pairwise_map]
  refine (List.pairwise_flatten.1 h.behind).2.imp_of_mem fun {us vs} hus hvs hbehind => ?_
  obtain ⟨t, ht, hstop⟩ := exists_stop_cover (hne us hus)
  obtain ⟨u, hu, hstart⟩ := exists_start_cover (hne vs hvs)
  have hproper := (hcover us hus).proper
  have hle := hbehind t ht u hu
  omega

end Token

namespace Expr

variable {source : List Char} {tokens ts : List Token} {e : Expr}

/-- Every node has the span of its tokens. -/
theorem Derives.span_eq (h : Derives ts e) : e.span = Token.cover ts := by
  cases h <;> rfl

/-- The node stands in the source from where a token starts to where a token stops, around its
children, and these follow each other in their order. -/
structure WellPlaced (source : List Char) (tokens : List Token) (e : Expr) : Prop where
  cuts : e.span.Cuts source
  first : ∃ t ∈ tokens, t.span.start = e.span.start
  last : ∃ t ∈ tokens, t.span.stop = e.span.stop
  within : ∀ d ∈ e.children, e.span.start ≤ d.span.start ∧ d.span.stop ≤ e.span.stop
  ordered : (e.children.map span).Pairwise fun a b => a.start < b.start ∧ a.stop ≤ b.start

/-- A node is well placed, as its children have tokens that follow each other among its own. -/
theorem Derives.wellPlaced (h : Derives ts e) (hts : ts.Sublist tokens)
    (htokens : Token.InOrder source tokens) : WellPlaced source tokens e := by
  have hin := htokens.sublist hts
  obtain ⟨pieces, hchildren, hflatten, hpieces⟩ := h.pieces
  have hne : ∀ us ∈ pieces.map (·.1), us ≠ [] :=
    List.forall_mem_map.2 fun p hp => (hpieces p hp).ne_nil
  have hspans : e.children.map span = (pieces.map (·.1)).map Token.cover := by
    rw [← hchildren, List.map_map, List.map_map]
    exact List.map_congr_left fun p hp => (hpieces p hp).span_eq
  constructor
  case cuts => exact h.span_eq ▸ hin.cuts_cover h.ne_nil
  case first =>
    obtain ⟨t, ht, hstart⟩ := Token.exists_start_cover h.ne_nil
    exact ⟨t, hts.subset ht, h.span_eq ▸ hstart⟩
  case last =>
    obtain ⟨t, ht, hstop⟩ := Token.exists_stop_cover h.ne_nil
    exact ⟨t, hts.subset ht, h.span_eq ▸ hstop⟩
  case within =>
    intro d hd
    rw [← hchildren] at hd
    obtain ⟨p, hp, rfl⟩ := List.mem_map.1 hd
    have hpiece := List.mem_map_of_mem (f := (·.1)) hp
    rw [h.span_eq, (hpieces p hp).span_eq]
    exact hin.cover_sublist ((List.sublist_flatten_of_mem hpiece).trans hflatten) (hne _ hpiece)
  case ordered => exact hspans ▸ (hin.sublist hflatten).pairwise_cover hne

/-- All parts of an expression are well placed among the tokens of the text. -/
theorem Derives.all_wellPlaced (h : Derives ts e) (hts : ts.Sublist tokens)
    (htokens : Token.InOrder source tokens) : e.All (WellPlaced source tokens) := by
  induction e using inductParts generalizing ts with
  | h e ih =>
    refine all_iff.2 ⟨h.wellPlaced hts htokens, fun d hd => ?_⟩
    obtain ⟨us, hus, hpart⟩ := h.part (.child .self hd)
    exact ih d hd hpart (hus.trans hts)

/-- The nodes of an expression that was read are nested as the tokens of the text are ordered, and
the expression as a whole goes from the first token to the last one. -/
theorem parse_wellPlaced {text : String} {e : Expr} (h : parse text = .ok e) :
    ∃ tokens first last, Token.readAll text = .ok tokens ∧ tokens.head? = some first ∧
      tokens.getLast? = some last ∧ e.span = ⟨first.span.start, last.span.stop⟩ ∧
      e.All (WellPlaced text.toList tokens) := by
  obtain ⟨tokens, hread, hderives⟩ := parse_eq_ok.1 h
  have hne := hderives.ne_nil
  have hfirst := List.head?_eq_some_head hne
  have hlast := List.getLast?_eq_some_getLast hne
  refine ⟨tokens, tokens.head hne, tokens.getLast hne, ?_, hfirst, hlast, ?_,
    hderives.all_wellPlaced (List.Sublist.refl _) (Token.inOrder_of_read hread)⟩
  · rw [Token.readAll, Token.read, hread]
  · rw [hderives.span_eq, Token.cover, Token.endOf, hfirst, hlast]
    rfl

/-- A cast of a call with a chain in front and a position behind. -/
theorem parse_wellPlaced_of_cast :
    let text := "(A) b.c(d, 1)[e++]"
    let e := cast ⟨0, 18⟩ (.named "A" [] 0) (index ⟨4, 18⟩
      (method ⟨4, 13⟩ (name ⟨4, 5⟩ "b") "c" [name ⟨8, 9⟩ "d", literal ⟨11, 12⟩ .int "1"])
      (unary ⟨14, 17⟩ .postIncrement (name ⟨14, 15⟩ "e")))
    parse text = .ok e ∧ ∃ tokens first last, Token.readAll text = .ok tokens ∧
      tokens.head? = some first ∧ tokens.getLast? = some last ∧
      e.span = ⟨first.span.start, last.span.stop⟩ ∧ e.All (WellPlaced text.toList tokens) := by
  intro text e
  have hread : Token.read text = ([⟨.punctuation '(', ⟨0, 1⟩⟩, ⟨.identifier "A", ⟨1, 2⟩⟩,
      ⟨.punctuation ')', ⟨2, 3⟩⟩, ⟨.identifier "b", ⟨4, 5⟩⟩, ⟨.punctuation '.', ⟨5, 6⟩⟩,
      ⟨.identifier "c", ⟨6, 7⟩⟩, ⟨.punctuation '(', ⟨7, 8⟩⟩, ⟨.identifier "d", ⟨8, 9⟩⟩,
      ⟨.punctuation ',', ⟨9, 10⟩⟩, ⟨.number "1", ⟨11, 12⟩⟩, ⟨.punctuation ')', ⟨12, 13⟩⟩,
      ⟨.punctuation '[', ⟨13, 14⟩⟩, ⟨.identifier "e", ⟨14, 15⟩⟩, ⟨.sign .plusPlus, ⟨15, 17⟩⟩,
      ⟨.punctuation ']', ⟨17, 18⟩⟩], none) := by decide +kernel
  have hparse : parse text = .ok e := by
    rw [parse_of_read hread]
    with_unfolding_all rfl
  exact ⟨hparse, parse_wellPlaced hparse⟩

end Expr

end Stencil
