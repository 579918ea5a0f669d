import CellStore.Proofs.Shadows
import CellStore.Proofs.Transparency

/-! # Readers that come later

A later reader sees all that an earlier one saw, its own writes apart, and perhaps more. What is
added may be a newer version or a delete marker, either of which takes the place of what the earlier
reader was shown. So a column goes forward from one reader to the next, and an older version never
comes back. A filter of the caller has no part in this: it may leave out the newest version, and the
reader is then not shown the one behind it instead.
-/
namespace CellStore

/-- A later transaction sees at least as far, and there is nobody up to the bound of the earlier one
whom it excludes or takes for dead but those that the earlier one does. -/
structure Transaction.Precedes (t t' : Transaction) : Prop where
  bound : t.upperBound ≤ t'.upperBound
  hidden : ∀ x ≤ t.upperBound, x ∈ t'.excluded ∨ x ∈ t'.invalid → x ∈ t.excluded ∨ x ∈ t.invalid

namespace View

variable {t t' : Transaction} {ttl : TtlTable} {now : TxId} {v : View} {s : Store} {c d : Cell}

/-- The newest candidate of its column. -/
structure Tops (v : View) (s : Store) (c : Cell) : Prop where
  candidate : v.Candidate s c
  newest : ∀ d, v.Candidate s d → d.column = c.column → d.timestamp ≤ c.timestamp

theorem Candidate.exists_tops (hw : s.WellFormed) (hc : v.Candidate s c) :
    ∃ m, v.Tops s m ∧ m.column = c.column ∧ c.timestamp ≤ m.timestamp := by
  have hmem {d : Cell} (hd : v.Candidate s d) : d ∈ s.contents := ((candidate_iff hw).1 hd).1
  have hcandidates : ∃ d ∈ s.contents, v.Candidate s d ∧ d.column = c.column :=
    ⟨c, hmem hc, hc, rfl⟩
  obtain ⟨m, -, ⟨hm, hcol⟩, hnewest⟩ := Cell.exists_newest hcandidates
  refine ⟨m, ⟨hm, fun d hd hdcol => ?_⟩, hcol, hnewest c (hmem hc) ⟨hc, rfl⟩⟩
  exact hnewest d (hmem hd) ⟨hd, hdcol.trans hcol⟩

/-- The newest candidate of a column is shown, unless it is a delete marker. -/
theorem Tops.shows (h : v.Tops s c) (hplain : c.isDeleteMarker = false) : v.Shows s c := by
  refine ⟨h.candidate, hplain, ?_, .inr ?_⟩
  · rintro ⟨m, hm, hcol, -, hlt⟩
    exact UInt64.not_lt.2 (h.newest m hm hcol) hlt
  · rintro ⟨d, hd, hcol, hlt⟩
    exact UInt64.not_lt.2 (h.newest d hd hcol) hlt

/-- A candidate of one reader that it did not write is one of every later reader. -/
theorem Candidate.later (hc : Candidate ⟨t, ttl, now⟩ s c) (hown : c.timestamp ≠ t.id)
    (hle : t.Precedes t') : Candidate ⟨t', ttl, now⟩ s c := by
  obtain ⟨hexcluded, hbound, hinvalid, halive⟩ := hc.passes.resolve_left hown
  have hnot (hhidden : c.timestamp ∈ t'.excluded ∨ c.timestamp ∈ t'.invalid) : False :=
    (hle.hidden _ hbound hhidden).elim hexcluded hinvalid
  have hbound' := UInt64.le_trans hbound hle.bound
  refine { hc with inRange := ⟨hc.inRange.1, Transaction.le_maxVisible hbound'⟩, passes := .inr ?_ }
  exact ⟨fun h => hnot (.inl h), hbound', fun h => hnot (.inr h), halive⟩

/-- Above a version that one reader is shown, a later one is shown one that is no older, or else the
newest candidate is a delete marker. -/
theorem Shows.later (hw : s.WellFormed) (hc : Shows ⟨t, ttl, now⟩ s c) (hown : c.timestamp ≠ t.id)
    (hle : t.Precedes t') :
    (∃ d, Shows ⟨t', ttl, now⟩ s d ∧ d.column = c.column ∧ c.timestamp ≤ d.timestamp) ∨
      ∃ m, Tops ⟨t', ttl, now⟩ s m ∧ m.column = c.column ∧ m.isDeleteMarker = true ∧
        c.timestamp < m.timestamp := by
  have hcand := hc.candidate.later hown hle
  obtain ⟨m, hm, hcol, hts⟩ := hcand.exists_tops hw
  cases hmark : m.isDeleteMarker with
  | false => exact .inl ⟨m, hm.shows hmark, hcol, hts⟩
  | true =>
    refine .inr ⟨m, hm, hcol, hmark, UInt64.lt_of_le_of_ne hts fun heq => ?_⟩
    have hsame := hw.candidate_inj hcand hm.candidate hcol.symm heq
    exact Bool.false_ne_true (hc.plain.symm.trans (hsame ▸ hmark))

/-- Of the versions behind a candidate none is shown but the reader's own. -/
theorem Shows.not_older (hc : v.Candidate s c) (hd : v.Shows s d) (hcol : d.column = c.column) :
    c.timestamp ≤ d.timestamp ∨ d.timestamp = v.reader.id := by
  refine (hd.first.imp id fun hfirst => ?_).symm
  exact UInt64.not_lt.1 fun hlt => hfirst ⟨c, hc, hcol.symm, hlt⟩

end View

/-! ## Reads -/

variable {σ : Type} [SnapshotSource σ]

/-- Whatever filter the caller adds, a read in a running region gives only what its transaction is to
be shown. -/
theorem Host.Running.read_shown {h : Host σ} {ctx : Context Unit} {s : Store} {r : Read}
    {t : Transaction} {out : List Cell} {c : Cell} (hrun : h.Running ctx) (hr : h.Reachable)
    (hs : h.store = some s) (ht : r.attributes.transaction? h.processor.codec = .ok (some t))
    (hout : (h.read r).result = .ok out) (hc : c ∈ out) :
    Read.covers r.rows r.families c = true ∧ View.Shows ⟨t, ctx.ttl, h.now⟩ s c := by
  obtain ⟨bytes, hattr, hdec⟩ := Attributes.transaction_eq_some_iff.1 ht
  rw [hrun.read_result hs hattr, hdec] at hout
  exact (hr.wellFormed hs).read_shown hout hc

namespace Host

variable {h : Host σ} {ctx : Context Unit} {s : Store} {r : Read} {a' : Attributes}
  {t t' : Transaction}

/-- Reads go forward. Let two transactions, one later than the other, make the same read of a running
region, and let the earlier one be given a version that it did not write, whatever filter its caller
adds. Without a filter of the caller, the later one is given a version of the column that is no
older, or the newest candidate of the column is a newer delete marker. With a predicate of the caller
it is given what the predicate wants of that. And whatever the filter is, the later one is given no
older version of the column but its own. -/
theorem Running.reads_go_forward (hr : h.Reachable) (hrun : h.Running ctx) (hs : h.store = some s)
    (ht : r.attributes.transaction? h.processor.codec = .ok (some t))
    (ht' : a'.transaction? h.processor.codec = .ok (some t')) (hle : t.Precedes t') :
    ∃ shown, (h.read { r with filter := none, attributes := a' }).result = .ok shown ∧
      (∀ keep, r.filter = some (.predicate keep) →
        (h.read { r with attributes := a' }).result = .ok (shown.filter keep)) ∧
      ∀ out, (h.read r).result = .ok out → ∀ c ∈ out, c.timestamp ≠ t.id →
        ((∃ d ∈ shown, d.column = c.column ∧ c.timestamp ≤ d.timestamp) ∨
          ∃ m, View.Tops ⟨t', ctx.ttl, h.now⟩ s m ∧ m.column = c.column ∧
            m.isDeleteMarker = true ∧ c.timestamp < m.timestamp) ∧
        ∀ out', (h.read { r with attributes := a' }).result = .ok out' → ∀ d ∈ out',
          d.column = c.column → c.timestamp ≤ d.timestamp ∨ d.timestamp = t'.id := by
  have hw := hr.wellFormed hs
  have hnone : (none : Option Filter) = (none : Option (Cell → Bool)).map .predicate := rfl
  obtain ⟨shown, hshown, hord, hmem⟩ :=
    hrun.read_shows hr hs (r := { r with filter := none, attributes := a' }) hnone ht'
  refine ⟨shown, hshown, fun keep hkeep => ?_, fun out hout c hc hown => ?_⟩
  · have hpredicate : r.filter = (some keep).map .predicate := hkeep
    obtain ⟨kept, hkept, hord', hmem'⟩ :=
      hrun.read_shows hr hs (r := { r with attributes := a' }) hpredicate ht'
    rw [hkept, hord'.ext (hord.sublist List.filter_sublist) fun c => ?_]
    rw [hmem', List.mem_filter, hmem]
    constructor
    · rintro ⟨hcov, hwanted, hshows⟩
      exact ⟨⟨hcov, rfl, hshows⟩, hwanted⟩
    · rintro ⟨⟨hcov, -, hshows⟩, hwanted⟩
      exact ⟨hcov, hwanted, hshows⟩
  · obtain ⟨hcov, hshows⟩ := hrun.read_shown hr hs ht hout hc
    refine ⟨?_, fun out' hout' d hd hcol => ?_⟩
    · refine (hshows.later hw hown hle).imp_left ?_
      rintro ⟨d, hd, hcol, hts⟩
      exact ⟨d, (hmem d).2 ⟨(View.covers_congr hcol).trans hcov, rfl, hd⟩, hcol, hts⟩
    · have hcand := hshows.candidate.later hown hle
      exact View.Shows.not_older hcand (hrun.read_shown hr hs ht' hout' hd).2 hcol

/-- A region in which a column was written a second time, and another one was deleted. -/
def overwritten : Host SnapshotCache :=
  (blank .messagePack).run
    [.put { row := [1], cells := [⟨⟨[1], [2], [3]⟩, 10, [7], []⟩, ⟨⟨[1], [2], [4]⟩, 10, [7], []⟩] },
      .put { row := [1], cells := [⟨⟨[1], [2], [3]⟩, 20, [8], []⟩] },
      .put ({ row := [1], cells := [⟨⟨[1], [2], [4]⟩, 20, [], []⟩] } : Put).asDelete]

/-- What it stores. -/
def overwrittenStore : Store :=
  { memstore := [⟨⟨[1], [2], [3]⟩, 20, [8], []⟩, ⟨⟨[1], [2], [3]⟩, 10, [7], []⟩,
      ⟨⟨[1], [2], [4]⟩, 20, [], [Tag.deleteMarker]⟩, ⟨⟨[1], [2], [4]⟩, 10, [7], []⟩] }

/-- A reader between the two writes. -/
def earlier : Transaction := .ofLists 16 15 [] []

/-- A reader that comes after them. -/
def later : Transaction := .ofLists 40 30 [] []

/-- A read of the versions with one value. -/
def sevensFor (t : Transaction) : Read :=
  { Read.allFor .messagePack t with filter := some (.predicate fun c => c.value == [7]) }

theorem earlier_precedes_later : earlier.Precedes later where
  bound := by decide
  hidden x _ h := by simp [later, Transaction.ofLists] at h

theorem overwritten_running : overwritten.Running ⟨overwritten.region, {}, ()⟩ := ⟨rfl, .inr rfl, rfl⟩

theorem reads_go_forward_overwritten : earlier.Precedes later ∧
    (overwritten.read (sevensFor earlier)).result =
      .ok [⟨⟨[1], [2], [3]⟩, 10, [7], []⟩, ⟨⟨[1], [2], [4]⟩, 10, [7], []⟩] ∧
    ∃ shown, (overwritten.read (.allFor .messagePack later)).result = .ok shown ∧
      (overwritten.read (sevensFor later)).result = .ok (shown.filter fun c => c.value == [7]) ∧
      ∀ c ∈ [(⟨⟨[1], [2], [3]⟩, 10, [7], []⟩ : Cell), ⟨⟨[1], [2], [4]⟩, 10, [7], []⟩],
        (∃ d ∈ shown, d.column = c.column ∧ c.timestamp ≤ d.timestamp) ∨
          ∃ m, View.Tops ⟨later, {}, overwritten.now⟩ overwrittenStore m ∧ m.column = c.column ∧
            m.isDeleteMarker = true ∧ c.timestamp < m.timestamp := by
  have hr : overwritten.Reachable := (blank_reachable _).run _
  have hs : overwritten.store = some overwrittenStore := rfl
  have ht : (sevensFor earlier).attributes.transaction? overwritten.processor.codec =
      .ok (some earlier) := Read.allFor_transaction rfl
  have ht' : (sevensFor later).attributes.transaction? overwritten.processor.codec =
      .ok (some later) := Read.allFor_transaction rfl
  have hread : (overwritten.read (sevensFor earlier)).result =
      .ok [⟨⟨[1], [2], [3]⟩, 10, [7], []⟩, ⟨⟨[1], [2], [4]⟩, 10, [7], []⟩] := rfl
  obtain ⟨shown, hshown, hkept, hforward⟩ :=
    overwritten_running.reads_go_forward hr hs ht ht' earlier_precedes_later
  refine ⟨earlier_precedes_later, hread, shown, hshown, hkept _ rfl, fun c hc => ?_⟩
  refine (hforward _ hread c hc ?_).1
  simp only [List.mem_cons, List.not_mem_nil, or_false] at hc
  rcases hc with rfl | rfl <;> decide

/-- With a predicate of the caller a column may be missing from the later read, and not for a delete
marker: its newest version is rejected, and the one behind it is not given in its place. -/
theorem later_read_misses_column : overwritten.Reachable ∧
    overwritten.Running ⟨overwritten.region, {}, ()⟩ ∧ overwritten.store = some overwrittenStore ∧
    earlier.Precedes later ∧
    (overwritten.read (sevensFor earlier)).result =
      .ok [⟨⟨[1], [2], [3]⟩, 10, [7], []⟩, ⟨⟨[1], [2], [4]⟩, 10, [7], []⟩] ∧
    (10 : TxId) ≠ earlier.id ∧
    (overwritten.read { sevensFor earlier with attributes := (sevensFor later).attributes }).result =
      .ok [] ∧
    ¬∃ m, View.Tops ⟨later, {}, overwritten.now⟩ overwrittenStore m ∧
      m.column = ⟨[1], [2], [3]⟩ ∧ m.isDeleteMarker = true ∧ 10 < m.timestamp := by
  have hr : overwritten.Reachable := (blank_reachable _).run _
  refine ⟨hr, overwritten_running, rfl, earlier_precedes_later, rfl, by decide, rfl, ?_⟩
  rintro ⟨m, hm, hcol, hmark, -⟩
  have hmem : m ∈ overwrittenStore.memstore :=
    ((View.candidate_iff (hr.wellFormed rfl)).1 hm.candidate).1
  simp only [overwrittenStore, List.mem_cons, List.not_mem_nil, or_false] at hmem
  rcases hmem with rfl | rfl | rfl | rfl
  · cases hmark
  · cases hmark
  · cases hcol
  · cases hcol

end Host

end CellStore
