import CellStore.Proofs.Regions

/-! # What a transaction reads

A version is a candidate for a reader if no newer source holds it too, no tombstone
masks it, it lies in the time range of the read and it passes. A read shows of every
column the newest candidate and the reader's own writes, unless a newer candidate is
a delete marker. This holds for any rows and families, whether or not the caller adds
a predicate.
-/
namespace CellStore

/-- Merging sources loses no place at which a tombstone stands. -/
theorem Run.masked_merge_iff (sources : List (List Cell)) {c : Cell} :
    c.Masked (Run.merge sources) ↔ c.Masked sources.flatten := by
  constructor
  · rintro ⟨t, ht, hrest⟩
    exact ⟨t, Run.mem_of_mem_merge ht, hrest⟩
  · rintro ⟨t, ht, hcol, htomb, hle⟩
    obtain ⟨d, hd, hkey⟩ := Run.exists_mem_merge ht
    simp only [Cell.key, Key.mk.injEq] at hkey
    exact ⟨d, hd, hkey.1.trans hcol, hkey.2.2.trans htomb, hkey.2.1 ▸ hle⟩

namespace Store

/-- A source holds the version, and no newer source holds one of the same column and timestamp. -/
def Newest (s : Store) (c : Cell) : Prop :=
  ∃ newer r older, s.sources = newer ++ r :: older ∧ c ∈ r ∧
    ∀ r' ∈ newer, ∀ d ∈ r', d.column = c.column → d.timestamp ≠ c.timestamp

/-- Some source holds a tombstone of the column at or above the version. -/
def Masks (s : Store) (c : Cell) : Prop := c.Masked s.sources.flatten

theorem masks_iff {s : Store} {c : Cell} : s.Masks c ↔ c.Masked s.contents :=
  (Run.masked_merge_iff s.sources).symm

theorem ordered_covered (s : Store) (p : Plan) : Run.Ordered (s.contents.filter p.covers) :=
  (Run.ordered_merge s.sources).sublist List.filter_sublist

/-- Of the versions that nothing masks, the merge of all sources holds the newest copies. -/
theorem WellFormed.mem_contents_iff {s : Store} (hw : s.WellFormed) {c : Cell}
    (hc : c.isTombstone = false) (hm : ¬s.Masks c) : c ∈ s.contents ↔ s.Newest c := by
  change c ∈ Run.merge s.sources ↔ _
  rw [Run.mem_merge_iff hw.sources]
  constructor
  · rintro ⟨newer, r, older, hsplit, hcr, hnewer⟩
    refine ⟨newer, r, older, hsplit, hcr, fun r' hr' d hd hcol hts => ?_⟩
    -- A newer cell at the place of the version could only be a tombstone, which masks it.
    have htomb : d.isTombstone = true := by
      by_contra hd'
      refine hnewer r' hr' d hd ?_
      rw [Cell.key, Cell.key, hcol, hts, hc, Bool.eq_false_iff.2 hd']
    refine hm ⟨d, ?_, hcol, htomb, hts ▸ UInt64.le_refl _⟩
    rw [hsplit]
    exact List.mem_flatten.2 ⟨r', List.mem_append_left _ hr', hd⟩
  · rintro ⟨newer, r, older, hsplit, hcr, hnewer⟩
    refine ⟨newer, r, older, hsplit, hcr, fun r' hr' d hd hkey => ?_⟩
    simp only [Cell.key, Key.mk.injEq] at hkey
    exact hnewer r' hr' d hd hkey.1 hkey.2.1

end Store

/-- A read covers the cells of the rows it asks for, the last row of a scan left out, and of the
families it names, or of all if it names none. -/
theorem Read.covers_iff {rows : Rows} {families : List Bytes} {c : Cell} :
    Read.covers rows families c = true ↔
      (match rows with
        | .one row => c.column.row = row
        | .between start stop => compare c.column.row start ≠ .lt ∧
            ∀ last ∈ stop, compare c.column.row last = .lt) ∧
        (families = [] ∨ c.column.family ∈ families) := by
  have hfamilies : (families.isEmpty || families.contains c.column.family) = true ↔
      families = [] ∨ c.column.family ∈ families := by
    simp
  rw [Read.covers, Bool.and_eq_true, hfamilies]
  refine and_congr_left fun _ => ?_
  cases rows with
  | one row => exact beq_iff_eq
  | between start stop =>
    cases stop with
    | none => simp [Rows.contains, Ordering.isGE_iff_ne_lt]
    | some last => simp [Rows.contains, Ordering.isGE_iff_ne_lt, Ordering.isLT_iff_eq_lt]

namespace View

/-- Whether a version may be shown, the other versions of its column aside. -/
structure Candidate (v : View) (s : Store) (c : Cell) : Prop where
  newest : s.Newest c
  version : c.isTombstone = false
  unmasked : ¬s.Masks c
  inRange : v.ttl.oldestVisible v.now ≤ c.timestamp ∧ c.timestamp ≤ v.reader.maxVisible
  passes : v.Passes c

/-- Whether a version is shown. -/
structure Shows (v : View) (s : Store) (c : Cell) : Prop where
  candidate : v.Candidate s c
  plain : c.isDeleteMarker = false
  undeleted : ¬∃ m, v.Candidate s m ∧ m.column = c.column ∧ m.isDeleteMarker = true ∧
    c.timestamp < m.timestamp
  first : c.timestamp = v.reader.id ∨
    ¬∃ d, v.Candidate s d ∧ d.column = c.column ∧ c.timestamp < d.timestamp

theorem candidate_iff {v : View} {s : Store} (hw : s.WellFormed) {c : Cell} :
    v.Candidate s c ↔ c ∈ s.contents ∧ c.isTombstone = false ∧ ¬c.Masked s.contents ∧
      (v.ttl.oldestVisible v.now ≤ c.timestamp ∧ c.timestamp ≤ v.reader.maxVisible) ∧ v.Passes c := by
  rw [← Store.masks_iff]
  constructor
  · rintro ⟨hn, hv, hm, hr, hp⟩
    exact ⟨(hw.mem_contents_iff hv hm).2 hn, hv, hm, hr, hp⟩
  · rintro ⟨hc, hv, hm, hr, hp⟩
    exact ⟨(hw.mem_contents_iff hv hm).1 hc, hv, hm, hr, hp⟩

/-- Visibility with the predicate of a caller, or without any. -/
def layering (caller : Option (Cell → Bool)) : Layering (Option Filter) where
  Holds f v := f = some ((Filter.visibility v).combine (caller.map .predicate))
  bypass _ := none
  wanted c := caller.all (· c)
  step_bypass _ h := by cases h
  step_asks {f v c} hf _ := by
    subst hf
    cases caller with
    | none =>
      refine ⟨_, rfl, ?_⟩
      simp only [CellFilter.step, Filter.combine, Option.map_none, Filter.step, Option.all_none,
        if_true, Decision.strictest_accept]
      cases (v.step c).1 <;> rfl
    | some keep =>
      refine ⟨_, rfl, ?_⟩
      simp only [CellFilter.step, Filter.combine, Option.map_some, Filter.step, Filter.stepAll,
        Option.all_some]
      cases (v.step c).1 <;> simp [Except.map]
  bypass_older _ _ := rfl

/-- Coverage is a matter of the column. -/
theorem covers_congr {rows : Rows} {families : List Bytes} {c d : Cell} (h : d.column = c.column) :
    Read.covers rows families d = Read.covers rows families c := by
  rw [Read.covers, Read.covers, h]

/-- A read that covers a version covers all that could mask it. -/
theorem masked_filter_covers {rows : Rows} {families : List Bytes} {cells : List Cell} {c : Cell}
    (hcov : Read.covers rows families c = true) :
    c.Masked (cells.filter (Read.covers rows families)) ↔ c.Masked cells := by
  constructor
  · rintro ⟨t, ht, hrest⟩
    exact ⟨t, (List.mem_filter.1 ht).1, hrest⟩
  · rintro ⟨t, ht, hcol, hrest⟩
    exact ⟨t, List.mem_filter.2 ⟨ht, (covers_congr hcol).trans hcov⟩, hcol, hrest⟩

variable {v : View} {s : Store} {r : Read} {caller : Option (Cell → Bool)} {c d : Cell}

theorem contains_planFor_iff : (r.planFor v).sweep.timeRange.contains c.timestamp = true ↔
    v.ttl.oldestVisible v.now ≤ c.timestamp ∧ c.timestamp ≤ v.reader.maxVisible := by
  change (decide (v.ttl.oldestVisible v.now ≤ c.timestamp) &&
    decide (c.timestamp ≤ v.reader.maxVisible)) = true ↔ _
  rw [Bool.and_eq_true, decide_eq_true_iff, decide_eq_true_iff]

theorem filter_planFor (hf : r.filter = caller.map .predicate) (v : View) :
    (r.planFor v).filter = some ((Filter.visibility { view := v, purpose := .userScan }).combine
      (caller.map .predicate)) := by
  rw [← hf]
  rfl

/-- The versions that a read offers to its filter and that pass are the covered candidates. -/
theorem offers_and_passes_iff (hw : s.WellFormed) :
    (r.planFor v).sweep.Offers (s.contents.filter (r.planFor v).covers) d ∧ v.Passes d ↔
      Read.covers r.rows r.families d = true ∧ v.Candidate s d := by
  have hmasked (hcov : Read.covers r.rows r.families d = true) :
      d.Masked (s.contents.filter (r.planFor v).covers) ↔ d.Masked s.contents :=
    masked_filter_covers hcov
  have hcovers : (r.planFor v).covers d = Read.covers r.rows r.families d := rfl
  have happ : (r.planFor v).sweep.appliesTombstones = true := rfl
  rw [candidate_iff hw, Sweep.Offers, List.mem_filter, contains_planFor_iff, hcovers]
  simp only [happ, true_implies]
  constructor
  · rintro ⟨⟨⟨hmem, hcov⟩, hv, hm, hr⟩, hp⟩
    exact ⟨hcov, hmem, hv, fun h => hm ((hmasked hcov).2 h), hr, hp⟩
  · rintro ⟨hcov, hmem, hv, hm, hr, hp⟩
    exact ⟨⟨⟨hmem, hcov⟩, hv, fun h => hm ((hmasked hcov).1 h), hr⟩, hp⟩

/-- What a read keeps of the contents is what it is to show. -/
theorem keeps_iff (hw : s.WellFormed) :
    (layering caller).Keeps (r.planFor v).sweep v .userScan
        (s.contents.filter (r.planFor v).covers) c ↔
      Read.covers r.rows r.families c = true ∧ caller.all (· c) = true ∧ v.Shows s c := by
  have hoffers (d : Cell) := offers_and_passes_iff (r := r) (v := v) (d := d) hw
  have hnewer (hcov : Read.covers r.rows r.families c = true) (d : Cell)
      (hcol : d.column = c.column) :
      d ∈ (layering caller).Newer (r.planFor v).sweep (s.contents.filter (r.planFor v).covers) c ∧
        v.Passes d ↔ v.Candidate s d ∧ c.timestamp < d.timestamp := by
    have hd := hoffers d
    rw [covers_congr hcol, hcov, eq_self, true_and] at hd
    rw [← hd]
    constructor
    · rintro ⟨⟨⟨ho, -⟩, hlt⟩, hp⟩
      exact ⟨⟨ho, hp⟩, hlt⟩
    · rintro ⟨⟨ho, hp⟩, hlt⟩
      exact ⟨⟨⟨ho, rfl⟩, hlt⟩, hp⟩
  constructor
  · rintro (⟨hn, -⟩ | ⟨ho, hb | ⟨-, hwanted, hp, hs, hk⟩⟩)
    · cases hn
    · cases hb
    obtain ⟨hcov, hcand⟩ := (hoffers c).1 ⟨ho, hp⟩
    have hplain : c.isDeleteMarker = false := by
      by_contra hm
      rw [if_pos (Bool.not_eq_false _ ▸ hm)] at hk
      cases hk
    refine ⟨hcov, hwanted, hcand, hplain, ?_, ?_⟩
    · rintro ⟨m, hm, hcol, hmark, hlt⟩
      obtain ⟨hnew, hmp⟩ := (hnewer hcov m hcol).2 ⟨hm, hlt⟩
      exact hs ⟨m, hnew, hcol, hmp, hmark, hlt⟩
    · rw [if_neg (by simp [hplain])] at hk
      rcases hk with hown | hall | hfirst
      · exact .inl hown
      · cases hall
      · refine .inr fun ⟨d, hd, hcol, hlt⟩ => ?_
        obtain ⟨hnew, hdp⟩ := (hnewer hcov d hcol).2 ⟨hd, hlt⟩
        exact hfirst ⟨d, hnew, hcol, hdp⟩
  · rintro ⟨hcov, hwanted, hcand, hplain, hundeleted, hfirst⟩
    obtain ⟨ho, hp⟩ := (hoffers c).2 ⟨hcov, hcand⟩
    refine .inr ⟨ho, .inr ⟨rfl, hwanted, hp, ?_, ?_⟩⟩
    · rintro ⟨m, hm, hcol, hmp, hmark, -⟩
      obtain ⟨hmc, hlt⟩ := (hnewer hcov m hcol).1 ⟨hm, hmp⟩
      exact hundeleted ⟨m, hmc, hcol, hmark, hlt⟩
    · rw [if_neg (by simp [hplain])]
      refine hfirst.imp id fun hno => .inr ?_
      rintro ⟨d, hd, hcol, hdp⟩
      obtain ⟨hdc, hlt⟩ := (hnewer hcov d hcol).1 ⟨hd, hdp⟩
      exact hno ⟨d, hdc, hcol, hlt⟩

end View

/-- A read for a transaction never fails on a well-formed store, and it gives the run of the covered
and wanted cells that the transaction is to be shown. -/
theorem Store.WellFormed.read_shows {s : Store} (hw : s.WellFormed) {r : Read}
    {caller : Option (Cell → Bool)} (hf : r.filter = caller.map .predicate) (v : View) :
    ∃ out, (s.read (r.planFor v)).1 = .ok out ∧ Run.Ordered out ∧ ∀ c, c ∈ out ↔
      Read.covers r.rows r.families c = true ∧ caller.all (· c) = true ∧ v.Shows s c := by
  have hcells := s.ordered_covered (r.planFor v)
  have hfilter := View.filter_planFor hf v
  obtain ⟨out, f', hrun, hout⟩ :=
    (View.layering caller).run_keeps (r.planFor v).sweep v .userScan rfl hcells hfilter
  have hread : (s.read (r.planFor v)).1 = .ok out := congrArg Prod.fst hrun
  refine ⟨out, hread, hcells.sublist (Sweep.run_sublist hread), fun c => ?_⟩
  rw [hout, View.keeps_iff hw, and_iff_right_of_imp]
  rintro ⟨hcov, -, hshows⟩
  exact List.mem_filter.2 ⟨((View.candidate_iff hw).1 hshows.candidate).1, hcov⟩

theorem Attributes.transaction_eq_some_iff {a : Attributes} {codec : Codec} {t : Transaction} :
    a.transaction? codec = .ok (some t) ↔
      ∃ bytes, a.get? Attributes.transactionKey = some bytes ∧ codec.decode bytes = .ok t := by
  unfold Attributes.transaction?
  cases a.get? Attributes.transactionKey with
  | none => simp
  | some bytes => cases hdec : codec.decode bytes <;> simp [Except.map, hdec]

/-- A read of all there is, for a transaction. -/
def Read.allFor (codec : Codec) (t : Transaction) : Read :=
  { rows := .all, attributes := Attributes.attach codec t [] }

theorem Read.allFor_transaction {codec : Codec} {t : Transaction}
    (h : codec.decode (codec.encode t) = .ok t) :
    (Read.allFor codec t).attributes.transaction? codec = .ok (some t) :=
  Attributes.transaction_eq_some_iff.2 ⟨codec.encode t, rfl, h⟩

variable {σ : Type} [SnapshotSource σ]

/-- A read for a transaction in a running region gives what the transaction is to be shown. -/
theorem Host.Running.read_shows {h : Host σ} {ctx : Context Unit} {s : Store} (hrun : h.Running ctx)
    (hr : h.Reachable) (hs : h.store = some s) {r : Read} {t : Transaction}
    {caller : Option (Cell → Bool)} (hf : r.filter = caller.map .predicate)
    (ht : r.attributes.transaction? h.processor.codec = .ok (some t)) :
    ∃ out, (h.read r).result = .ok out ∧ Run.Ordered out ∧ ∀ c, c ∈ out ↔
      Read.covers r.rows r.families c = true ∧ caller.all (· c) = true ∧
        View.Shows ⟨t, ctx.ttl, h.now⟩ s c := by
  obtain ⟨bytes, hattr, hdec⟩ := Attributes.transaction_eq_some_iff.1 ht
  obtain ⟨out, hread, hout⟩ := (hr.wellFormed hs).read_shows hf ⟨t, ctx.ttl, h.now⟩
  refine ⟨out, ?_, hout⟩
  rw [hrun.read_result hs hattr, hdec]
  exact hread

/-- The codec used by default reports bytes that are no transaction as such. -/
theorem Codec.messagePack_decode_error {bytes : Bytes} {e : Error}
    (h : Codec.messagePack.decode bytes = .error e) : ∃ reason, e = .decode reason := by
  obtain ⟨reason, -, he⟩ := Codec.ofWire_decode_error_iff.1 h
  exact ⟨reason, he⟩

/-- Reads are exact. Where a running region gets a read that carries a transaction, the read
is refused if the bytes do not decode, and otherwise gives in store order, each once, the
covered and wanted cells that the transaction is to be shown. -/
theorem Host.read_exact {h : Host σ} {ctx : Context Unit} {s : Store} (hr : h.Reachable)
    (hrun : h.Running ctx) (hs : h.store = some s) {r : Read} {bytes : Bytes}
    {caller : Option (Cell → Bool)}
    (hattr : r.attributes.get? Attributes.transactionKey = some bytes)
    (hf : r.filter = caller.map .predicate) :
    (∀ e, h.processor.codec.decode bytes = .error e → (h.read r).result = .error e ∧
      (h.processor.codec = .messagePack → ∃ reason, e = .decode reason)) ∧
    (∀ t, h.processor.codec.decode bytes = .ok t → ∃ out, (h.read r).result = .ok out ∧
      Run.Ordered out ∧ out.Nodup ∧ ∀ c, c ∈ out ↔ Read.covers r.rows r.families c = true ∧
        caller.all (· c) = true ∧ View.Shows ⟨t, ctx.ttl, h.now⟩ s c) := by
  constructor
  · intro e hdec
    refine ⟨by rw [hrun.read_result hs hattr, hdec], fun hcodec => ?_⟩
    rw [hcodec] at hdec
    exact Codec.messagePack_decode_error hdec
  · intro t hdec
    have ht := Attributes.transaction_eq_some_iff.2 ⟨bytes, hattr, hdec⟩
    obtain ⟨out, hread, hord, hout⟩ := hrun.read_shows hr hs hf ht
    exact ⟨out, hread, hord, hord.nodup, hout⟩

/-- A region with one version, written by the transaction 10. -/
def Host.written : Host SnapshotCache :=
  (blank .messagePack).run [.put { row := [1], cells := [⟨⟨[1], [2], [3]⟩, 10, [7], []⟩] }]

/-- A read of the versions with one value, for the transaction 20. -/
def Read.sevens : Read :=
  { Read.allFor .messagePack (.ofLists 20 15 [12] [3]) with
    filter := some (.predicate fun c => c.value == [7]) }

theorem Host.read_exact_written :
    ∃ out, (written.read .sevens).result = .ok out ∧ Run.Ordered out ∧ out.Nodup ∧
      ∀ c, c ∈ out ↔ Read.covers .all [] c = true ∧ (c.value == [7]) = true ∧
        View.Shows ⟨.ofLists 20 15 [12] [3], {}, written.now⟩
          ⟨[⟨⟨[1], [2], [3]⟩, 10, [7], []⟩], []⟩ c := by
  have hrun : written.Running ⟨written.region, {}, ()⟩ := ⟨rfl, .inr rfl, rfl⟩
  have hattr : Read.sevens.attributes.get? Attributes.transactionKey =
      some (Codec.messagePack.encode (.ofLists 20 15 [12] [3])) := rfl
  have hf : Read.sevens.filter = (some fun c : Cell => c.value == [7]).map Filter.predicate := rfl
  exact (Host.read_exact ((blank_reachable _).run _) hrun rfl hattr hf).2 (.ofLists 20 15 [12] [3]) rfl

end CellStore
