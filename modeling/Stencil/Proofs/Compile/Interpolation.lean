import Stencil.Proofs.Compile.RegionStop
import Stencil.Proofs.Markup.Problem

/-!
# Interpolations that are compiled and interpolations that are skipped

What the scanner takes for one interpolation is a region of a text: from two opening braces to the
next two closing ones. A region should leave one expression, or a diagnostic in it that says why not.
The walk looks for markers, and a marker does not reach over a line break.

**The law** (`interpolations_accounted`): a region is accounted for exactly if some opening braces in
it have no line break behind them. It is then one marker that is compiled, and that leaves one
expression and no diagnostic in the region, or no expression and some diagnostic there. A region whose
opening braces all have a line break behind them is skipped without a word: it leaves neither
(`interpolation_over_lines_skipped`).

What a compile has are the records of its stops, and in a region there is at most one stop; so what is
left in a region is one record, which is settled, or none (`inRegion_cases`). The rest is that what is
said elsewhere does not reach into a region.

**What it does not establish.** Import elements are left out with all texts in them: the compiled
template has none of these texts.
-/

namespace Stencil

open Markup (Node Laid)

/-! ## What the regions leave -/

/-- What was left at the stops in a region. -/
def Record.inRegion (rs : List Record) (span : Span) : List Record :=
  rs.filter fun r => r.stop.task.span.Between span

section

variable {job : Job} {base : Context} {nodes : List Node} {rs : List Record}
  {x : Nat × Markup.Marker}

/-- What is said at a stop is said at the span of its task. -/
theorem Record.Made.pointsAt {r : Record} (h : r.Made job base) :
    ∀ d ∈ r.diagnostics, d.PointsAt job.file r.stop.task.span := by
  obtain ⟨p, q, -, -, hleaves⟩ := h
  exact hleaves.pointing

/-- A region that is read has one record, which is settled. The others have none. -/
theorem inRegion_cases {lo hi : Nat} (h : Laid job.file.content lo hi nodes)
    (hstops : rs.map (·.stop) = Markup.rootStops job.settings nodes)
    (hmade : ∀ r ∈ rs, r.Made job base)
    (hx : x ∈ Markup.regionsIn (Markup.keptTexts job.settings nodes)) :
    (x.2.IsRead → ∃ r ∈ rs, Record.inRegion rs (x.2.braces x.1) = [r] ∧
      r.stop.task.span.Between (x.2.braces x.1) ∧
      Compile.Settled r.expression? r.diagnostics) ∧
    (¬ x.2.IsRead → Record.inRegion rs (x.2.braces x.1) = []) := by
  -- The records in a region are at the stops there, and those are at the marker of the region.
  have hmarkers : (Record.inRegion rs (x.2.braces x.1)).map (·.stop.task.marker?) =
      (Markup.readIn? x).toList.map some := by
    rw [← h.filter_stops hx, ← hstops, List.filter_map, List.map_map]
    rfl
  have hread : (Markup.readIn? x).isSome = true ↔ x.2.IsRead := by
    rw [Markup.readIn?, Option.isSome_map]
    exact x.2.isSome_read?
  constructor
  · intro hisRead
    obtain ⟨y, hy⟩ := Option.isSome_iff_exists.1 (hread.2 hisRead)
    rw [hy] at hmarkers
    obtain ⟨r, hr, hmarker⟩ := List.map_eq_singleton_iff.1 hmarkers
    obtain ⟨hmem, hbetween⟩ : r ∈ rs ∧ _ := List.mem_filter.1 (hr ▸ List.mem_singleton_self r)
    exact ⟨r, hmem, hr, of_decide_eq_true hbetween, (hmade r hmem).settled (by rw [hmarker]; rfl)⟩
  · intro hnot
    have hnone : Markup.readIn? x = none := by
      rwa [← hread, Bool.not_eq_true, Option.isSome_eq_false_iff, Option.isNone_iff_eq_none] at hnot
    rw [hnone] at hmarkers
    exact List.map_eq_nil_iff.1 hmarkers

/-- What is said at a stop is said in the region that the stop is in, or apart from the region. -/
theorem apartFrom_or_inRegion {lo hi : Nat} (h : Laid job.file.content lo hi nodes)
    (hstops : rs.map (·.stop) = Markup.rootStops job.settings nodes)
    (hmade : ∀ r ∈ rs, r.Made job base)
    (hx : x ∈ Markup.regionsIn (Markup.keptTexts job.settings nodes))
    (hcuts : (x.2.braces x.1).Cuts job.file.content) :
    ∀ r ∈ rs, ∀ d ∈ r.diagnostics,
      r ∈ Record.inRegion rs (x.2.braces x.1) ∨ d.ApartFrom (x.2.braces x.1) := by
  intro r hr d hd
  have hs : r.stop ∈ Markup.rootStops job.settings nodes := hstops ▸ List.mem_map_of_mem hr
  rcases h.between_or_apart hs hx with ⟨hbetween, -⟩ | ⟨hapart, -⟩
  · exact .inl (List.mem_filter.2 ⟨hr, decide_eq_true hbetween⟩)
  · exact .inr (((hmade r hr).pointsAt d hd).apartFrom hcuts hapart)

/-- Where nothing is said in a region, nothing that is said reaches into it: what is said of the markup
is apart from every text, and so from the region. -/
theorem apartFrom_of_silent {ms : List Diagnostic}
    (hlaid : Laid job.file.content 0 (Text.byteSize job.file.content)
      (Markup.Tree.ofSource job.file.content).nodes)
    (hstops : rs.map (·.stop) =
      Markup.rootStops job.settings (Markup.Tree.ofSource job.file.content).nodes)
    (hmade : ∀ r ∈ rs, r.Made job base)
    (hmarkup : ∀ d ∈ ms, ∃ error ∈ (Markup.Tree.ofSource job.file.content).errors,
      d.PointsAt job.file error.span)
    {text : String × Span}
    (htext : text ∈ Markup.keptTexts job.settings (Markup.Tree.ofSource job.file.content).nodes)
    {region : Markup.Marker} (hregion : region ∈ Markup.regionsOf text.1.toList)
    (hcuts : (region.braces text.2.start).Cuts job.file.content)
    (hnone : ∀ r ∈ Record.inRegion rs (region.braces text.2.start), r.diagnostics = []) :
    ∀ d ∈ ms ++ rs.flatMap (·.diagnostics), d.ApartFrom (region.braces text.2.start) := by
  have hx : (text.2.start, region) ∈ Markup.regionsIn
      (Markup.keptTexts job.settings (Markup.Tree.ofSource job.file.content).nodes) :=
    Markup.mem_regionsIn.2 ⟨text, htext, rfl, hregion⟩
  -- What is said of the markup is apart from every text, and what is said at a stop outside is apart
  -- from the region.
  refine List.forall_mem_append.2 ⟨fun d hd => ?_, fun d hd => ?_⟩
  · obtain ⟨error, herror, hpoints⟩ := hmarkup d hd
    have htextOf := (Markup.keptTexts_sublist job.settings _).subset htext
    have hholds := ((hlaid.textsKept job.settings).2 text htext).holds
    have hwithin := (Markup.located_regions hholds).1.1 _ (List.mem_map_of_mem hregion)
    have hout := (Markup.apart_errors job.file.content error herror text htextOf).symm
    exact hpoints.apartFrom hcuts (hout.mono hwithin.1 hwithin.2)
  · obtain ⟨r, hr, hd⟩ := List.mem_flatMap.1 hd
    rcases apartFrom_or_inRegion hlaid hstops hmade hx hcuts r hr d hd with hin | hout
    · rw [hnone r hin] at hd
      cases hd
    · exact hout

end

/-- A successful compile has the records of its stops, one for each stop and in their order, each made
in the initial context with the imports of the settings and of the template in it. A region
of a text outside of import elements, some of whose opening braces have no line break behind them,
leaves one expression, an interpolation, and no diagnostic reaches into it; or it leaves no expression,
and some diagnostic points into it. Any other region leaves no expression, and no diagnostic reaches
into it. -/
theorem interpolations_accounted {settings : Settings} {url template : String} {ctx : Context}
    {c : Compiled} (h : (compileTemplate settings url template ctx).answer = .ok c) :
    ∃ rs : List Record,
      rs.map (·.stop) =
        Markup.rootStops settings (Markup.Tree.ofSource template.toList).nodes ∧
      (∀ r ∈ rs, r.Made ⟨settings, ⟨url, template.toList⟩⟩
        (ctx.prepared settings (importsOf settings template))) ∧
      c.expressions = rs.filterMap (·.expression?) ∧
      ∀ text ∈ Markup.keptTexts settings (Markup.Tree.ofSource template.toList).nodes,
        ∀ region ∈ Markup.regionsOf text.1.toList,
          let span := region.braces text.2.start
          let left := (Record.inRegion rs span).filterMap (·.expression?)
          (region.IsRead →
            (∃ entry, left = [entry] ∧ entry.kind = .interpolation ∧
              ∀ d ∈ c.diagnostics, d.ApartFrom span) ∨
            left = [] ∧ ∃ d ∈ c.diagnostics, d.Within span) ∧
          (¬ region.IsRead → left = [] ∧ ∀ d ∈ c.diagnostics, d.ApartFrom span) := by
  obtain ⟨ms, rs, hstops, hmade, hexpressions, hdiagnostics, hmarkup⟩ :=
    Compile.exec_source_records ⟨settings, ⟨url, template.toList⟩⟩ h
  refine ⟨rs, hstops, hmade, hexpressions, ?_⟩
  intro text htext region hregion
  extract_lets span left
  have hlaid := Markup.laid_ofSource template.toList
  have hx : (text.2.start, region) ∈ Markup.regionsIn
      (Markup.keptTexts settings (Markup.Tree.ofSource template.toList).nodes) :=
    Markup.mem_regionsIn.2 ⟨text, htext, rfl, hregion⟩
  have hcuts : span.Cuts template.toList :=
    ((Markup.located_regions ((hlaid.textsKept settings).2 text htext).holds).2 region hregion).2.cuts
      (by simp [Markup.braced])
  -- One record in a region that is read, and none in any other.
  obtain ⟨hread, hunread⟩ := inRegion_cases hlaid hstops hmade hx
  have hapart (hnone : ∀ r ∈ Record.inRegion rs span, r.diagnostics = []) :
      ∀ d ∈ c.diagnostics, d.ApartFrom span :=
    hdiagnostics ▸ apartFrom_of_silent hlaid hstops hmade hmarkup htext hregion hcuts hnone
  constructor
  · intro hisRead
    obtain ⟨r, hr, honly, hbetween, hsettled⟩ := hread hisRead
    have hleft : left = r.expression?.toList := by
      simp only [left, span, honly]
      cases hentry : r.expression? <;> simp [hentry]
    rcases hsettled with ⟨entry, hentry, hkind, hnil⟩ | ⟨hentry, hne⟩
    · refine .inl ⟨entry, by rw [hleft, hentry]; rfl, hkind, hapart ?_⟩
      rw [honly]
      exact List.forall_mem_singleton.2 hnil
    · obtain ⟨d, hd⟩ := List.exists_mem_of_ne_nil _ hne
      refine .inr ⟨by rw [hleft, hentry]; rfl, d, ?_, ?_⟩
      · rw [hdiagnostics]
        exact List.mem_append_right _ (List.mem_flatMap.2 ⟨r, hr, hd⟩)
      · exact ((hmade r hr).pointsAt d hd).within hcuts (Nat.le_of_lt hbetween.1)
          (Nat.le_of_lt hbetween.2)
  · intro hnot
    have hnil : Record.inRegion rs span = [] := hunread hnot
    refine ⟨by simp only [left, hnil]; rfl, hapart ?_⟩
    rw [hnil]
    exact List.forall_mem_nil _

/-- Of two interpolations of a text, the one with a line break in it is skipped. -/
theorem first_of_two_interpolations_compiled : ∃ (c : Compiled) (rs : List Record),
    (compileTemplate {} "a.html" "<p>\x7b\x7b y + 1 \x7d\x7d\x7b\x7b 2\n\x7d\x7d</p>"
      { root := [⟨"y", .int, .loopLocal⟩] }).answer = .ok c ∧
    c.expressions = rs.filterMap (·.expression?) ∧
    (∃ entry, (Record.inRegion rs ⟨3, 14⟩).filterMap (·.expression?) = [entry] ∧
      entry.kind = .interpolation ∧ ∀ d ∈ c.diagnostics, d.ApartFrom ⟨3, 14⟩) ∧
    (Record.inRegion rs ⟨14, 21⟩).filterMap (·.expression?) = [] ∧
    ∀ d ∈ c.diagnostics, d.ApartFrom ⟨14, 21⟩ := by
  let template := "<p>\x7b\x7b y + 1 \x7d\x7d\x7b\x7b 2\n\x7d\x7d</p>"
  have hdiagnostics : (compileTemplate {} "a.html" template
      { root := [⟨"y", .int, .loopLocal⟩] }).answer.toOption.map (·.diagnostics) = some [] := by
    decide +kernel
  obtain ⟨c, hc, hnone⟩ := Option.map_eq_some_iff.1 hdiagnostics
  have hrun := eq_ok_of_toOption hc
  obtain ⟨rs, -, -, hexpressions, hregions⟩ := interpolations_accounted hrun
  have hread : Markup.Marker.IsRead ⟨2, " y + 1 ".toList⟩ := (Markup.Marker.isSome_read? _).1 rfl
  have hskipped : ¬ Markup.Marker.IsRead ⟨13, " 2\n".toList⟩ := by
    rw [← Markup.Marker.isSome_read?]
    decide
  have htext : ("\x7b\x7b y + 1 \x7d\x7d\x7b\x7b 2\n\x7d\x7d", (⟨3, 21⟩ : Span)) ∈
      Markup.keptTexts {} (Markup.Tree.ofSource template.toList).nodes := by
    decide +kernel
  have hfirst := (hregions _ htext ⟨2, " y + 1 ".toList⟩ (by decide +kernel)).1 hread
  have hsecond := (hregions _ htext ⟨13, " 2\n".toList⟩ (by decide +kernel)).2 hskipped
  refine ⟨c, rs, hrun, hexpressions, ?_, hsecond⟩
  rcases hfirst with hentry | ⟨-, d, hd, -⟩
  · exact hentry
  · rw [hnone] at hd
    cases hd

/-- An interpolation with a line break in it leaves neither an expression nor a diagnostic. -/
theorem interpolation_over_lines_skipped :
    Markup.keptTexts {} (Markup.Tree.ofSource "\x7b\x7b 1\n\x7d\x7d".toList).nodes =
      [("\x7b\x7b 1\n\x7d\x7d", ⟨0, 7⟩)] ∧
    Markup.regionsOf "\x7b\x7b 1\n\x7d\x7d".toList = [⟨2, " 1\n".toList⟩] ∧
    (compileTemplate {} "template.html" "\x7b\x7b 1\n\x7d\x7d" {}).answer.toOption.map
      (fun c => (c.template, c.expressions, c.diagnostics)) =
        some ("\x7b\x7b 1\n\x7d\x7d", [], []) := by
  decide +kernel

end Stencil
