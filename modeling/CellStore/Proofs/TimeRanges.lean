import CellStore.Proofs.Reading

/-! # The time range of a transactional read

A read for a transaction looks only at the versions between the oldest cutoff of the listed
families and the largest id that the transaction may see. The upper end takes nothing away,
since nothing above it passes. The lower end takes away what passes below it, and that can
only be what no cutoff of a listed family speaks of: a version of an unlisted family, or a
write of the transaction itself.
-/
namespace CellStore

namespace TtlTable

variable {t : TtlTable} {family : Bytes} {now : TxId} {c : Cell}

/-- Whether a family has an entry, be it one without a limit. -/
def Lists (t : TtlTable) (family : Bytes) : Prop := ∃ e ∈ t.entries, e.1 = family

theorem foldl_min_le (l : List TxId) (a : TxId) : l.foldl min a ≤ a ∧ ∀ x ∈ l, l.foldl min a ≤ x := by
  induction l generalizing a with
  | nil => exact ⟨UInt64.le_refl a, by simp⟩
  | cons b l ih =>
    have hmin : min a b ≤ a ∧ min a b ≤ b := by
      change (if a ≤ b then a else b) ≤ a ∧ (if a ≤ b then a else b) ≤ b
      split_ifs with hle
      · exact ⟨UInt64.le_refl a, hle⟩
      · exact ⟨UInt64.le_of_lt (UInt64.not_le.1 hle), UInt64.le_refl b⟩
    obtain ⟨hfirst, hrest⟩ := ih (min a b)
    rw [List.foldl_cons, List.forall_mem_cons]
    exact ⟨UInt64.le_trans hfirst hmin.1, UInt64.le_trans hfirst hmin.2, hrest⟩

theorem oldestVisible_le (h : t.Lists family) : t.oldestVisible now ≤ (t.cutoff family now).getD 0 := by
  obtain ⟨e, he, rfl⟩ := h
  have hcutoff : (t.cutoff e.1 now).getD 0 ∈ t.entries.map fun e => (t.cutoff e.1 now).getD 0 :=
    List.mem_map_of_mem he
  unfold oldestVisible
  split
  · simp_all
  · rename_i oldest rest heq
    rw [heq, List.mem_cons] at hcutoff
    obtain ⟨hfirst, hrest⟩ := foldl_min_le rest oldest
    rcases hcutoff with hcutoff | hcutoff
    · rwa [hcutoff]
    · exact hrest _ hcutoff

/-- What lives in a listed family is not older than the oldest cutoff. -/
theorem oldestVisible_le_of_alive (h : t.Lists c.column.family) (halive : ¬t.Expired now c) :
    t.oldestVisible now ≤ c.timestamp := by
  apply UInt64.le_trans (oldestVisible_le h)
  cases hcutoff : t.cutoff c.column.family now with
  | none => exact UInt64.zero_le
  | some cutoff => exact UInt64.not_lt.1 fun hlt => halive ⟨cutoff, hcutoff, hlt⟩

end TtlTable

/-- A reader with an id of its own sees nothing beyond the end of its time range. -/
theorem Transaction.Sees.le_maxVisible {t : Transaction} {x : TxId} (h : t.Sees x)
    (hne : t.id ≠ TxId.synthetic) : x ≤ t.maxVisible := by
  have hmax : t.maxVisible = if t.id ≤ t.upperBound then t.upperBound else t.id := by
    simp [Transaction.maxVisible, Transaction.isSynthetic, hne]
    rfl
  rw [hmax]
  rcases h with rfl | ⟨-, hle, -⟩ <;> split_ifs with hid
  · exact hid
  · exact UInt64.le_refl _
  · exact hle
  · exact UInt64.le_trans hle (UInt64.le_of_lt (UInt64.not_le.1 hid))

/-- The plan of a read for a transaction, but for all times. -/
def Read.planForever (r : Read) (v : View) : Plan := { r.planFor v with timeRange := .all }

namespace View

variable {v : View} {s : Store} {r : Read} {caller : Option (Cell → Bool)} {cells : List Cell}
  {c : Cell}

theorem offers_iff_forever :
    (r.planFor v).sweep.Offers cells c ↔ (r.planForever v).sweep.Offers cells c ∧
      v.ttl.oldestVisible v.now ≤ c.timestamp ∧ c.timestamp ≤ v.reader.maxVisible := by
  have hforever : (r.planForever v).sweep.timeRange.contains c.timestamp = true :=
    TimeRange.all_contains _
  have happ : (r.planForever v).sweep.appliesTombstones = (r.planFor v).sweep.appliesTombstones := rfl
  rw [Sweep.Offers, Sweep.Offers, contains_planFor_iff, hforever, happ]
  simp only [and_true, and_assoc]

theorem keeps_iff_accepts {σ : Sweep} (happ : σ.appliesTombstones = true) :
    (layering caller).Keeps σ v .userScan cells c ↔ σ.Offers cells c ∧ caller.all (· c) = true ∧
      v.Accepts .userScan ((layering caller).Newer σ cells c) c := by
  have hbypass : (layering caller).bypass c = none := rfl
  have hwanted : (layering caller).wanted c = caller.all (· c) := rfl
  rw [Layering.Keeps, hbypass, hwanted]
  simp [happ]

/-- The time range cuts off what lies below its lower end and changes nothing else. -/
theorem keeps_iff_forever (hne : v.reader.id ≠ TxId.synthetic) :
    (layering caller).Keeps (r.planFor v).sweep v .userScan cells c ↔
      (layering caller).Keeps (r.planForever v).sweep v .userScan cells c ∧
        v.ttl.oldestVisible v.now ≤ c.timestamp := by
  rw [keeps_iff_accepts rfl, keeps_iff_accepts rfl, offers_iff_forever]
  -- What passes and is newer than a version in the range is in the range.
  have hnewer (hlow : v.ttl.oldestVisible v.now ≤ c.timestamp) (d : Cell) (hp : v.Passes d) :
      d ∈ (layering caller).Newer (r.planFor v).sweep cells c ↔
        d ∈ (layering caller).Newer (r.planForever v).sweep cells c := by
    constructor
    · rintro ⟨⟨hoffers, hasks⟩, hlt⟩
      exact ⟨⟨(offers_iff_forever.1 hoffers).1, hasks⟩, hlt⟩
    · rintro ⟨⟨hoffers, hasks⟩, hlt⟩
      have hrange : v.ttl.oldestVisible v.now ≤ d.timestamp ∧ d.timestamp ≤ v.reader.maxVisible :=
        ⟨UInt64.le_trans hlow (UInt64.le_of_lt hlt), hp.sees.le_maxVisible hne⟩
      exact ⟨⟨offers_iff_forever.2 ⟨hoffers, hrange⟩, hasks⟩, hlt⟩
  constructor
  · rintro ⟨⟨hoffers, hlow, -⟩, hwanted, haccepts⟩
    exact ⟨⟨hoffers, hwanted, haccepts.anti fun d hd _ hp => (hnewer hlow d hp).2 hd⟩, hlow⟩
  · rintro ⟨⟨hoffers, hwanted, haccepts⟩, hlow⟩
    exact ⟨⟨hoffers, hlow, haccepts.1.sees.le_maxVisible hne⟩, hwanted,
      haccepts.anti fun d hd _ hp => (hnewer hlow d hp).1 hd⟩

end View

/-- A read for a transaction gives what it would give for all times, cut off at the lower end
of its time range. -/
theorem Store.read_forever (s : Store) {r : Read} {caller : Option (Cell → Bool)}
    (hf : r.filter = caller.map .predicate) {v : View} (hne : v.reader.id ≠ TxId.synthetic) :
    ∃ wide, (s.read (r.planForever v)).1 = .ok wide ∧
      (s.read (r.planFor v)).1 =
        .ok (wide.filter fun c => v.ttl.oldestVisible v.now ≤ c.timestamp) ∧
      ∀ c ∈ wide, v.Passes c := by
  have hcells := s.ordered_covered (r.planFor v)
  have hfilter := View.filter_planFor hf v
  obtain ⟨out, f, hrun, hout⟩ :=
    (View.layering caller).run_keeps (r.planFor v).sweep v .userScan rfl hcells hfilter
  obtain ⟨wide, f', hrun', hwide⟩ :=
    (View.layering caller).run_keeps (r.planForever v).sweep v .userScan rfl hcells hfilter
  have hread : (s.read (r.planFor v)).1 = .ok out := congrArg Prod.fst hrun
  have hread' : (s.read (r.planForever v)).1 = .ok wide := congrArg Prod.fst hrun'
  have hcut : out = wide.filter fun c => v.ttl.oldestVisible v.now ≤ c.timestamp := by
    apply (hcells.sublist (Sweep.run_sublist hread)).ext
      ((hcells.sublist (Sweep.run_sublist hread')).sublist List.filter_sublist)
    intro c
    rw [List.mem_filter, decide_eq_true_iff, hout, hwide, View.keeps_iff_forever hne, and_assoc]
  refine ⟨wide, hread', hread.trans (congrArg Except.ok hcut), fun c hc => ?_⟩
  exact ((View.keeps_iff_accepts rfl).1 ((hwide c).1 hc).2).2.2.1

variable {σ : Type}

/-- The time range of a transactional read takes away the versions below the oldest cutoff of
the listed families and no others. So the read gives what it would give for all times exactly
if none of the reader's own writes, and no version of an unlisted family, lies below it. -/
theorem Host.read_forever_iff {h : Host σ} {ctx : Context Unit} {s : Store} (hrun : h.Running ctx)
    (hs : h.store = some s) {r : Read} {t : Transaction} {caller : Option (Cell → Bool)}
    (hf : r.filter = caller.map .predicate)
    (ht : r.attributes.transaction? h.processor.codec = .ok (some t)) (hne : t.id ≠ TxId.synthetic) :
    ∃ wide, (s.read (r.planForever ⟨t, ctx.ttl, h.now⟩)).1 = .ok wide ∧
      (h.read r).result = .ok (wide.filter fun c => ctx.ttl.oldestVisible h.now ≤ c.timestamp) ∧
      ((h.read r).result = .ok wide ↔
        ∀ c ∈ wide, c.timestamp = t.id ∨ ¬ctx.ttl.Lists c.column.family →
          ctx.ttl.oldestVisible h.now ≤ c.timestamp) := by
  obtain ⟨bytes, hattr, hdec⟩ := Attributes.transaction_eq_some_iff.1 ht
  obtain ⟨wide, hwide, hread, hpasses⟩ := s.read_forever hf (v := ⟨t, ctx.ttl, h.now⟩) hne
  have hresult : (h.read r).result =
      .ok (wide.filter fun c => ctx.ttl.oldestVisible h.now ≤ c.timestamp) := by
    rw [hrun.read_result hs hattr, hdec]
    exact hread
  refine ⟨wide, hwide, hresult, ?_⟩
  rw [hresult, Except.ok.injEq, List.filter_eq_self]
  simp only [decide_eq_true_iff]
  constructor
  · intro hall c hc _
    exact hall c hc
  · intro hexempt c hc
    by_cases hcase : c.timestamp = t.id ∨ ¬ctx.ttl.Lists c.column.family
    · exact hexempt c hc hcase
    · obtain ⟨hother, hlisted⟩ := not_or.1 hcase
      obtain ⟨-, -, -, halive⟩ := (hpasses c hc).resolve_left hother
      exact TtlTable.oldestVisible_le_of_alive (not_not.1 hlisted) halive

theorem Host.read_forever_iff_written :
    ∃ wide, (Store.read ⟨[⟨⟨[1], [2], [3]⟩, 10, [7], []⟩], []⟩
        (Read.planForever .sevens ⟨.ofLists 20 15 [12] [3], {}, written.now⟩)).1 = .ok wide ∧
      (written.read .sevens).result =
        .ok (wide.filter fun c => TtlTable.oldestVisible {} written.now ≤ c.timestamp) ∧
      ((written.read .sevens).result = .ok wide ↔
        ∀ c ∈ wide, c.timestamp = 20 ∨ ¬TtlTable.Lists {} c.column.family →
          TtlTable.oldestVisible {} written.now ≤ c.timestamp) := by
  have hrun : written.Running ⟨written.region, {}, ()⟩ := ⟨rfl, .inr rfl, rfl⟩
  have hf : Read.sevens.filter = (some fun c : Cell => c.value == [7]).map Filter.predicate := rfl
  have ht : Read.sevens.attributes.transaction? written.processor.codec =
      .ok (some (.ofLists 20 15 [12] [3])) := rfl
  exact Host.read_forever_iff hrun rfl hf ht (by decide)

/-- A region whose one family limits how long its versions live, with a version in that family
and one in a family that its table does not list. Much time has passed since they were written. -/
def Host.aged : Host SnapshotCache :=
  (opening { table := ⟨"t", [(⟨[2], []⟩ : Family).setTtl 10]⟩, source := {},
             processor := { codec := .messagePack } }).state.run
    [.put { row := [1], cells := [⟨⟨[1], [2], [3]⟩, 5, [7], []⟩, ⟨⟨[1], [4], [3]⟩, 6, [8], []⟩] },
      .setClock 1000]

/-- The time range takes from the transaction 5 its own write, and from a later transaction a
version that never expires. -/
theorem Host.read_loses_below_cutoffs :
    aged.Reachable ∧ aged.Running ⟨"t,0", ⟨[([2], 10)]⟩, ()⟩ ∧
      (∃ s, aged.store = some s ∧
        (s.read ((Read.allFor .messagePack (.ofLists 5 0 [] [])).planForever
          ⟨.ofLists 5 0 [] [], ⟨[([2], 10)]⟩, aged.now⟩)).1 = .ok [⟨⟨[1], [2], [3]⟩, 5, [7], []⟩] ∧
        (s.read ((Read.allFor .messagePack (.ofLists 60 50 [] [])).planForever
          ⟨.ofLists 60 50 [] [], ⟨[([2], 10)]⟩, aged.now⟩)).1 = .ok [⟨⟨[1], [4], [3]⟩, 6, [8], []⟩]) ∧
      (aged.read (.allFor .messagePack (.ofLists 5 0 [] []))).result = .ok [] ∧
      (aged.read (.allFor .messagePack (.ofLists 60 50 [] []))).result = .ok [] := by
  refine ⟨(Reachable.opened ⟨rfl, rfl, rfl⟩).run _, ⟨rfl, .inr rfl, rfl⟩, ⟨_, rfl, rfl, rfl⟩, rfl, rfl⟩

end CellStore
