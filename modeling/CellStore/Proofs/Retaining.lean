import CellStore.Proofs.Regions

/-! # What flushes and compactions leave

A delete marker is effective under a snapshot if its writer is settled and valid and
it has not expired. Above the bound a snapshot retains the versions of all valid
writers, and at or below it the valid versions that live and that no effective marker
hides. A store's own tombstones are no versions: a flush and a minor compaction carry
them along, and a major compaction applies them and lets the effective markers go.
-/
namespace CellStore

namespace Snapshot

/-- A snapshot in which no id is invalid. -/
def clean (readPointer : TxId) (running : List TxId) : Snapshot :=
  ⟨readPointer, .empty, .ofList running, 0, fun _ h => absurd h List.not_mem_nil⟩

variable (s : Snapshot) (ttl : TtlTable) (now : TxId)

/-- A delete marker that hides the older versions of its column for good. A tombstone that
also bears the tag of a delete marker is none. -/
structure Effective (m : Cell) : Prop where
  marker : m.isDeleteMarker = true
  version : m.isTombstone = false
  settled : m.timestamp ≤ s.upperBound
  valid : m.timestamp ∉ s.invalid
  alive : ¬ttl.Expired now m

/-- Whether an effective marker among some cells hides a version. -/
def Hides (cells : List Cell) (c : Cell) : Prop :=
  ∃ m ∈ cells, m.column = c.column ∧ s.Effective ttl now m ∧ c.timestamp < m.timestamp

/-- Whether a version of some cells has to stay. -/
def Retains (cells : List Cell) (c : Cell) : Prop :=
  s.upperBound < c.timestamp ∧ c.timestamp ∉ s.invalid ∨
    c.timestamp ≤ s.upperBound ∧ c.timestamp ∉ s.invalid ∧ ¬ttl.Expired now c ∧
      ¬s.Hides ttl now cells c

end Snapshot

/-- What a flush or compaction leaves of the cells it goes through. Unguarded, it leaves all
but what tombstones take away. -/
def Upkeep.Leaves (guard : Option Snapshot) (ttl : TtlTable) (now : TxId) (cells : List Cell)
    (c : Cell) :
    Upkeep → Prop
  | .flush | .compact .minor => c.isTombstone = true ∨ ∀ s, guard = some s → s.Retains ttl now cells c
  | .compact .major => c.isTombstone = false ∧ ¬c.Masked cells ∧
    ∀ s, guard = some s → s.Retains ttl now cells c ∧ ¬s.Effective ttl now c

/-- The run of what a flush or compaction leaves. -/
structure Upkeep.Remains (u : Upkeep) (guard : Option Snapshot) (ttl : TtlTable) (now : TxId)
    (cells file : List Cell) : Prop where
  ordered : Run.Ordered file
  mem_iff : ∀ c, c ∈ file ↔ c ∈ cells ∧ u.Leaves guard ttl now cells c

theorem Upkeep.leaves_iff_of_ne_major {u : Upkeep} (hu : u ≠ .compact .major)
    {guard : Option Snapshot} {ttl : TtlTable} {now : TxId} {cells : List Cell} {c : Cell} :
    u.Leaves guard ttl now cells c ↔
      c.isTombstone = true ∨ ∀ s, guard = some s → s.Retains ttl now cells c := by
  rcases u with - | - | -
  · rfl
  · rfl
  · exact absurd rfl hu

/-- A version that is left is retained by the guard. -/
theorem Upkeep.Leaves.retains {u : Upkeep} {s : Snapshot} {ttl : TtlTable} {now : TxId}
    {cells : List Cell} {c : Cell} (h : u.Leaves (some s) ttl now cells c)
    (hc : c.isTombstone = false) :
    s.Retains ttl now cells c := by
  by_cases hu : u = .compact .major
  · subst hu
    exact (h.2.2 s rfl).1
  · rw [Upkeep.leaves_iff_of_ne_major hu, hc] at h
    exact h.resolve_left Bool.false_ne_true s rfl

/-- No filter at all. -/
def Layering.unguarded {φ : Type} [CellFilter φ] : Layering (Option φ) where
  Holds f _ := f = none
  bypass _ := some true
  wanted _ := true
  step_bypass hf hb := by
    cases hf
    cases hb
    exact ⟨none, rfl, rfl⟩
  step_asks _ h := by cases h
  bypass_older h := by cases h

namespace Retention

/-- The gate of a snapshot in front of the visibility at its bound. -/
def layering (s : Snapshot) : Layering (Option StoreScan) where
  Holds f v := ∃ scan : StoreScan, f = some scan ∧ scan.filter.inner = v ∧
    scan.filter.gate.boundary = s.upperBound ∧ scan.filter.gate.invalid = s.invalid
  bypass c := if s.upperBound < c.timestamp then some (!s.invalid.contains c.timestamp) else none
  wanted _ := true
  step_bypass {f v c b} hf hb := by
    obtain ⟨scan, rfl, rfl, hbound, hinvalid⟩ := hf
    split_ifs at hb with hlt
    cases hb
    by_cases hdead : s.invalid.contains c.timestamp = true
    · refine ⟨_, ⟨_, rfl, ?_⟩, Prod.ext ?_ rfl⟩ <;>
        simp [CellFilter.step, Retention.step, Gate.rule, hbound, hinvalid, hlt, hdead]
    · refine ⟨_, ⟨_, rfl, ?_⟩, Prod.ext ?_ rfl⟩ <;>
        simp [CellFilter.step, Retention.step, Gate.rule, hbound, hinvalid, hlt, hdead]
  step_asks {f v c} hf hb := by
    obtain ⟨scan, rfl, rfl, hbound, hinvalid⟩ := hf
    split_ifs at hb with hlt
    refine ⟨_, ⟨_, rfl, ?_⟩, Prod.ext ?_ rfl⟩
    · simp [CellFilter.step, Retention.step, Gate.rule, hbound, hinvalid, hlt]
    · simp only [CellFilter.step, Retention.step, Gate.rule, hbound, hlt, if_false, if_true,
        Decision.strictest_accept]
      cases (scan.filter.inner.step c).1 <;> rfl
  bypass_older {c d} hc hle := by
    split_ifs at hc with hlt
    rw [if_neg]
    exact UInt64.not_lt.2 (UInt64.le_trans hle (UInt64.not_lt.1 hlt))

variable {s : Snapshot} {ttl : TtlTable} {now : TxId} {cells : List Cell} {c : Cell} {σ : Sweep}

theorem bypass_eq_some_true_iff :
    (layering s).bypass c = some true ↔ s.upperBound < c.timestamp ∧ c.timestamp ∉ s.invalid := by
  simp only [layering]
  split_ifs with h
  · rw [Option.some.injEq, Bool.not_eq_true', Bool.eq_false_iff, Ne, IdSet.contains_eq_true_iff,
      and_iff_right h]
  · simp [h]

theorem bypass_eq_none_iff : (layering s).bypass c = none ↔ c.timestamp ≤ s.upperBound := by
  simp only [layering, ← UInt64.not_lt]
  split_ifs with h <;> simp [h]

/-- To the reader at the bound, a settled version passes if it is valid and lives. -/
theorem boundary_passes_iff (hc : c.timestamp ≤ s.upperBound) (hne : c.timestamp ≠ TxId.synthetic) :
    View.Passes ⟨Transaction.boundary s, ttl, now⟩ c ↔
      c.timestamp ∉ s.invalid ∧ ¬ttl.Expired now c := by
  have hempty : c.timestamp ∉ IdSet.empty := List.not_mem_nil
  simp [View.Passes, Transaction.boundary, hc, hne, hempty]

/-- Where the filter of the bound sees a newer delete marker that passes, an effective one hides the
version. -/
theorem boundary_shadowed_iff (hrange : σ.timeRange = .all) (hc : σ.Offers cells c)
    (hsyn : ∀ d ∈ cells, d.timestamp ≤ s.upperBound → d.timestamp ≠ TxId.synthetic) :
    View.Shadowed ⟨Transaction.boundary s, ttl, now⟩ ((layering s).Newer σ cells c) c ↔
      s.Hides ttl now cells c := by
  constructor
  · rintro ⟨m, ⟨⟨hoffer, hb⟩, hlt⟩, hcol, hp, hmark, -⟩
    have hsettled := bypass_eq_none_iff.1 hb
    obtain ⟨hvalid, halive⟩ := (boundary_passes_iff hsettled (hsyn m hoffer.1 hsettled)).1 hp
    exact ⟨m, hoffer.1, hcol, ⟨hmark, hoffer.2.1, hsettled, hvalid, halive⟩, hlt⟩
  · rintro ⟨m, hm, hcol, heff, hlt⟩
    have hunmasked (happ : σ.appliesTombstones = true) : ¬m.Masked cells := fun hmasked =>
      hc.2.2.1 happ (hmasked.anti hcol.symm (UInt64.le_of_lt hlt))
    have hall : σ.timeRange.contains m.timestamp = true := by
      rw [hrange]
      exact TimeRange.all_contains _
    have hpasses := (boundary_passes_iff heff.settled (hsyn m hm heff.settled)).2
      ⟨heff.valid, heff.alive⟩
    have hasks : (layering s).Asks σ cells m :=
      ⟨⟨hm, heff.version, hunmasked, hall⟩, bypass_eq_none_iff.2 heff.settled⟩
    exact ⟨m, ⟨hasks, hlt⟩, hcol, hpasses, heff.marker, hlt⟩

/-- The filter of the bound accepts what is to stay, of effective markers only those that
the scan writes back. -/
theorem boundary_accepts_iff {purpose : Purpose} (hpurpose : purpose ≠ .userScan)
    (hrange : σ.timeRange = .all) (hc : σ.Offers cells c) (hb : c.timestamp ≤ s.upperBound)
    (hsyn : ∀ d ∈ cells, d.timestamp ≤ s.upperBound → d.timestamp ≠ TxId.synthetic) :
    View.Accepts ⟨Transaction.boundary s, ttl, now⟩ purpose ((layering s).Newer σ cells c) c ↔
      s.Retains ttl now cells c ∧ (purpose = .retainDeletes ∨ ¬s.Effective ttl now c) := by
  rw [View.accepts_iff_of_compaction hpurpose, boundary_passes_iff hb (hsyn c hc.1 hb),
    boundary_shadowed_iff hrange hc hsyn]
  have hsettled : ¬s.upperBound < c.timestamp := UInt64.not_lt.2 hb
  have hretains : s.Retains ttl now cells c ↔
      c.timestamp ∉ s.invalid ∧ ¬ttl.Expired now c ∧ ¬s.Hides ttl now cells c := by
    simp [Snapshot.Retains, hsettled, hb]
  rw [hretains]
  constructor
  · rintro ⟨⟨hvalid, halive⟩, hhides, hmark⟩
    refine ⟨⟨hvalid, halive, hhides⟩, ?_⟩
    by_cases hm : c.isDeleteMarker = true
    · exact .inl (hmark hm)
    · exact .inr fun heff => hm heff.marker
  · rintro ⟨⟨hvalid, halive, hhides⟩, hmark⟩
    refine ⟨⟨hvalid, halive⟩, hhides, fun hm => ?_⟩
    exact hmark.resolve_right fun hno => hno ⟨hm, hc.2.1, hb, hvalid, halive⟩

variable (ttl now) in
theorem decided_iff {purpose : Purpose} (hpurpose : purpose ≠ .userScan)
    (hrange : σ.timeRange = .all) (hc : σ.Offers cells c)
    (hsyn : ∀ d ∈ cells, d.timestamp ≤ s.upperBound → d.timestamp ≠ TxId.synthetic) :
    ((layering s).bypass c = some true ∨ (layering s).bypass c = none ∧ (layering s).wanted c = true ∧
      View.Accepts ⟨Transaction.boundary s, ttl, now⟩ purpose ((layering s).Newer σ cells c) c) ↔
        s.Retains ttl now cells c ∧ (purpose = .retainDeletes ∨ ¬s.Effective ttl now c) := by
  have hwanted : (layering s).wanted c = true := rfl
  rw [bypass_eq_some_true_iff, bypass_eq_none_iff, hwanted]
  by_cases hb : c.timestamp ≤ s.upperBound
  · rw [boundary_accepts_iff hpurpose hrange hc hb hsyn]
    simp [UInt64.not_lt.2 hb, hb]
  · have hineffective : ¬s.Effective ttl now c := fun heff => hb heff.settled
    simp [Snapshot.Retains, hb, UInt64.not_le.1 hb, hineffective]

section

variable (hc : c ∈ cells)
  (hsyn : ∀ d ∈ cells, d.timestamp ≤ s.upperBound → d.timestamp ≠ TxId.synthetic)
include hc hsyn

/-- A guarded flush or minor compaction keeps the tombstones and what is retained. -/
theorem carrying_keeps_iff :
    (layering s).Keeps { appliesTombstones := false } ⟨Transaction.boundary s, ttl, now⟩
        .retainDeletes cells c ↔
      c.isTombstone = true ∨ s.Retains ttl now cells c := by
  constructor
  · rintro (⟨-, ht⟩ | ⟨ho, hd⟩)
    · exact .inl ht
    · exact .inr ((decided_iff ttl now (by decide) rfl ho hsyn).1 hd).1
  · intro h
    by_cases ht : c.isTombstone = true
    · exact .inl ⟨rfl, ht⟩
    · have ho : Sweep.Offers { appliesTombstones := false } cells c :=
        ⟨hc, Bool.eq_false_iff.2 ht, fun happ => absurd happ Bool.false_ne_true,
          TimeRange.all_contains _⟩
      exact .inr ⟨ho, (decided_iff ttl now (by decide) rfl ho hsyn).2 ⟨h.resolve_left ht, .inl rfl⟩⟩

/-- A guarded major compaction keeps the unmasked versions that are retained, but no
effective marker. -/
theorem applying_keeps_iff :
    (layering s).Keeps { appliesTombstones := true } ⟨Transaction.boundary s, ttl, now⟩
        .dropDeletes cells c ↔
      c.isTombstone = false ∧ ¬c.Masked cells ∧ s.Retains ttl now cells c ∧
        ¬s.Effective ttl now c := by
  constructor
  · rintro (⟨happ, -⟩ | ⟨ho, hd⟩)
    · cases happ
    · obtain ⟨hretains, hmark⟩ := (decided_iff ttl now (by decide) rfl ho hsyn).1 hd
      exact ⟨ho.2.1, ho.2.2.1 rfl, hretains, hmark.resolve_left (by decide)⟩
  · rintro ⟨hv, hm, hretains, hmark⟩
    have ho : Sweep.Offers { appliesTombstones := true } cells c :=
      ⟨hc, hv, fun _ => hm, TimeRange.all_contains _⟩
    exact .inr ⟨ho, (decided_iff ttl now (by decide) rfl ho hsyn).2 ⟨hretains, .inr hmark⟩⟩

/-- A guarded sweep keeps of a run what a flush or compaction is to leave. -/
theorem keeps_iff (u : Upkeep) :
    (layering s).Keeps { appliesTombstones := u == .compact .major }
        ⟨Transaction.boundary s, ttl, now⟩ u.purpose cells c ↔ u.Leaves (some s) ttl now cells c := by
  rcases u with - | - | - <;> simp only [Upkeep.Leaves, Option.some.injEq, forall_eq']
  · exact carrying_keeps_iff hc hsyn
  · exact carrying_keeps_iff hc hsyn
  · exact applying_keeps_iff hc hsyn

end

end Retention

/-- An unguarded sweep keeps of a run what a flush or compaction is to leave. -/
theorem Layering.unguarded_keeps_iff {φ : Type} [CellFilter φ] {view : View} {purpose : Purpose}
    {cells : List Cell} {c : Cell} (ttl : TtlTable) (now : TxId) (u : Upkeep) (hc : c ∈ cells) :
    (Layering.unguarded (φ := φ)).Keeps { appliesTombstones := u == .compact .major } view purpose
        cells c ↔
      u.Leaves none ttl now cells c := by
  have hall := TimeRange.all_contains c.timestamp
  rcases u with - | - | - <;> by_cases ht : c.isTombstone = true <;>
    simp [Layering.Keeps, Layering.unguarded, Upkeep.Leaves, Sweep.Offers, hc, hall, ht]

/-- What stands before a flush or compaction: the gate of a snapshot, if there is one. -/
def Layering.guarded : Option Snapshot → Layering (Option StoreScan)
  | none => .unguarded
  | some s => Retention.layering s

/-- The view at the bound of a guard. Without a guard no visibility is asked, so it does not matter
which. -/
def View.guarding (guard : Option Snapshot) (ttl : TtlTable) (now : TxId) : View :=
  ⟨(guard.map Transaction.boundary).getD ⟨0, 0, .empty, .empty⟩, ttl, now⟩

namespace Store

variable {guard : Option Snapshot} {ttl : TtlTable} {now : TxId} {cells : List Cell}

/-- No settled cell bears the id of the reader at the bound. -/
def Unreserved (guard : Option Snapshot) (cells : List Cell) : Prop :=
  ∀ s, guard = some s → ∀ c ∈ cells, c.timestamp ≤ s.upperBound → c.timestamp ≠ TxId.synthetic

/-- An id above the bound leaves the largest one above it too. -/
theorem unreserved_of_lt {id : TxId} (h : ∀ s, guard = some s → s.upperBound < id) :
    Unreserved guard cells := by
  intro s hs c _ hle hsyn
  have hlt : c.timestamp < id := UInt64.lt_of_le_of_lt hle (h s hs)
  rw [hsyn] at hlt
  exact UInt64.not_lt.2 (TxId.le_last id) hlt

/-- Going through a run for a flush or compaction never fails, and it keeps what the rule of
its filter says. -/
theorem condense_keeps (L : Layering (Option StoreScan)) {u : Upkeep} (scan : Option StoreScan)
    (view : View) (hholds : L.Holds scan { view, purpose := u.purpose }) (hcells : Run.Ordered cells) :
    ∃ file scan', condense u scan cells = (.ok file, scan') ∧ Run.Ordered file ∧
      ∀ c, c ∈ file ↔ c ∈ cells ∧
        L.Keeps { appliesTombstones := u == .compact .major } view u.purpose cells c := by
  obtain ⟨file, scan', hrun, hfile⟩ :=
    L.run_keeps { appliesTombstones := u == .compact .major } view u.purpose rfl hcells hholds
  exact ⟨file, scan', hrun, hcells.sublist (Sweep.run_sublist (congrArg Prod.fst hrun)), hfile⟩

variable (guard ttl now) in
/-- Whatever guards it, going through a run never fails. -/
theorem condense_guarded (u : Upkeep) (hcells : Run.Ordered cells) :
    ∃ file scan,
      condense u (guard.map fun s => ⟨u, .ofSnapshot s ttl u.purpose now⟩) cells = (.ok file, scan) ∧
      Run.Ordered file ∧ ∀ c, c ∈ file ↔ c ∈ cells ∧
        (Layering.guarded guard).Keeps { appliesTombstones := u == .compact .major }
          (.guarding guard ttl now) u.purpose cells c := by
  apply condense_keeps _ _ _ _ hcells
  cases guard with
  | none => rfl
  | some s => exact ⟨_, rfl, rfl, rfl, rfl⟩

variable (ttl now) in
/-- Going through a run for a flush or compaction gives the run of what is to be left. -/
theorem condense_leaves (u : Upkeep) (hcells : Run.Ordered cells) (hsyn : Unreserved guard cells) :
    ∃ file scan,
      condense u (guard.map fun s => ⟨u, .ofSnapshot s ttl u.purpose now⟩) cells = (.ok file, scan) ∧
      u.Remains guard ttl now cells file := by
  obtain ⟨file, scan, hcond, hord, hfile⟩ := condense_guarded guard ttl now u hcells
  refine ⟨file, scan, hcond, hord, fun c => ?_⟩
  rw [hfile]
  apply and_congr_right
  intro hc
  cases guard with
  | none => exact Layering.unguarded_keeps_iff ttl now u hc
  | some s => exact Retention.keeps_iff hc (hsyn s rfl) u

end Store

namespace Host

variable {σ : Type} [SnapshotSource σ] {h : Host σ} {ctx : Context Unit} {s : Store}

/-- Where there is nothing to flush or compact, nothing happens. -/
theorem upkeep_idle (hs : h.store = some s) {u : Upkeep} (hidle : s.isIdle u = true) :
    h.upkeep u = ⟨.ok (), h, []⟩ := by
  rw [upkeep_eq, onStore, hs]
  simp [hidle]

theorem upkeep_busy (hs : h.store = some s) {u : Upkeep} (hidle : ¬s.isIdle u = true) :
    h.upkeep u = (h.openScan u).andThen fun scan h => h.settle (s.tend h.region scan u) := by
  rw [upkeep_eq, onStore, hs]
  simp [hidle]

/-- With something to do and a guard for it, a flush or compaction puts its file in the place of
what it went through. -/
theorem upkeep_tends (hs : h.store = some s) {u : Upkeep} (hidle : ¬s.isIdle u = true)
    {scan scan' : Option StoreScan} {file : List Cell} (hopen : (h.openScan u).result = .ok scan)
    (hcond : Store.condense u scan (s.part u) = (.ok file, scan')) :
    (h.upkeep u).result = .ok () ∧ (h.upkeep u).state.store = some (s.replace file u) := by
  obtain ⟨hresult, hstate⟩ := Store.tend_ok (h.openScan u).state.region hcond
  obtain ⟨hres, hst⟩ := Outcome.andThen_ok hopen fun scan h => h.settle (s.tend h.region scan u)
  rw [upkeep_busy hs hidle, hres, hst]
  exact ⟨hresult, congrArg some hstate⟩

/-- A flush or compaction of an open region is refused, or it goes through what it has to and puts
its file in the place of that. -/
theorem upkeep_cases (hs : h.store = some s) (hw : s.WellFormed) (u : Upkeep) :
    (∃ e, (h.upkeep u).result = .error e ∧ (e = .notStarted ∨ e = .snapshotUnavailable)) ∨
      ∃ (guard : Option Snapshot) (ttl : TtlTable) (file : List Cell) (scan : Option StoreScan),
        Store.condense u (guard.map fun s => ⟨u, .ofSnapshot s ttl u.purpose h.now⟩) (s.part u) =
            (.ok file, scan) ∧
          (h.upkeep u).result = .ok () ∧ (h.upkeep u).state.store = some (s.replace file u) := by
  by_cases hidle : s.isIdle u = true
  · obtain ⟨hpart, hreplace⟩ := Store.part_of_isIdle hidle
    rw [upkeep_idle hs hidle, hpart]
    exact .inr ⟨none, {}, [], none, rfl, rfl, by rw [hreplace, hs]⟩
  have hrefused {e : Error} (hopen : (h.openScan u).result = .error e) :
      (h.upkeep u).result = .error e := by
    rw [upkeep_busy hs hidle, Outcome.andThen_error hopen]
  rcases h.openScan_cases u with hopen | hopen | ⟨guard, ttl, hopen⟩
  · exact .inl ⟨_, hrefused hopen, .inl rfl⟩
  · exact .inl ⟨_, hrefused hopen, .inr rfl⟩
  · obtain ⟨file, scan, hcond, -⟩ := Store.condense_guarded guard ttl h.now u (hw.part u)
    exact .inr ⟨guard, ttl, file, scan, hcond, upkeep_tends hs hidle hopen hcond⟩

/-- A flush or compaction of a running region is refused for want of a snapshot, or it puts
a file of what is to be left in the place of what it went through. -/
theorem Running.upkeep_leaves (hrun : h.Running ctx) (hs : h.store = some s) (hw : s.WellFormed)
    (u : Upkeep) (hsyn : Store.Unreserved h.latest (s.part u)) :
    (h.latest = none ∧ h.processor.settings.coldCachePolicy = .reject ∧
      (h.upkeep u).result = .error .snapshotUnavailable ∧ (h.upkeep u).state.store = some s) ∨
    ∃ file, (h.upkeep u).result = .ok () ∧ (h.upkeep u).state.store = some (s.replace file u) ∧
      u.Remains h.latest ctx.ttl h.now (s.part u) file := by
  by_cases hidle : s.isIdle u = true
  · obtain ⟨hpart, hreplace⟩ := Store.part_of_isIdle hidle
    refine .inr ⟨[], ?_⟩
    rw [upkeep_idle hs hidle, hreplace, hpart]
    exact ⟨rfl, hs, .nil, by simp⟩
  have hopen := hrun.openScan_result u
  by_cases hcold : h.latest = none ∧ h.processor.settings.coldCachePolicy = .reject
  · rw [if_pos hcold] at hopen
    refine .inl ⟨hcold.1, hcold.2, ?_⟩
    rw [upkeep_busy hs hidle, Outcome.andThen_error hopen]
    exact ⟨rfl, (h.openScan_store u).trans hs⟩
  · rw [if_neg hcold] at hopen
    obtain ⟨file, scan, hcond, hremains⟩ :=
      Store.condense_leaves ctx.ttl h.now u (hw.part u) hsyn
    obtain ⟨hresult, hstore⟩ := upkeep_tends hs hidle hopen hcond
    exact .inr ⟨file, hresult, hstore, hremains⟩

/-- Flushes and compactions leave what the snapshot retains. In a running region with a
latest snapshot, a flush turns the memstore into one file more and a compaction turns all
files into one, each holding exactly what is to be left; without anything to do they do
nothing. -/
theorem upkeep_exact (hr : h.Reachable) (hrun : h.Running ctx) (hs : h.store = some s)
    {snapshot : Snapshot} (hlatest : h.latest = some snapshot)
    (hsyn : ∀ c ∈ s.sources.flatten, c.timestamp ≠ TxId.synthetic) :
    (s.memstore ≠ [] → ∃ file, h.flush.result = .ok () ∧
      h.flush.state.store = some ⟨[], Store.addFile file s.files⟩ ∧ Run.Ordered file ∧
      ∀ c, c ∈ file ↔ c ∈ s.memstore ∧
        (c.isTombstone = true ∨ snapshot.Retains ctx.ttl h.now s.memstore c)) ∧
    (s.files ≠ [] → ∃ file, (h.compact .minor).result = .ok () ∧
      (h.compact .minor).state.store = some ⟨s.memstore, Store.addFile file []⟩ ∧ Run.Ordered file ∧
      ∀ c, c ∈ file ↔ c ∈ s.fileContents ∧
        (c.isTombstone = true ∨ snapshot.Retains ctx.ttl h.now s.fileContents c)) ∧
    (s.files ≠ [] → ∃ file, (h.compact .major).result = .ok () ∧
      (h.compact .major).state.store = some ⟨s.memstore, Store.addFile file []⟩ ∧ Run.Ordered file ∧
      ∀ c, c ∈ file ↔ c ∈ s.fileContents ∧ c.isTombstone = false ∧ ¬c.Masked s.fileContents ∧
        snapshot.Retains ctx.ttl h.now s.fileContents c ∧ ¬snapshot.Effective ctx.ttl h.now c) ∧
    (s.memstore = [] → h.flush = ⟨.ok (), h, []⟩) ∧
    (s.files = [] → ∀ kind, h.compact kind = ⟨.ok (), h, []⟩) := by
  have hleaves (u : Upkeep) : ∃ file, (h.upkeep u).result = .ok () ∧
      (h.upkeep u).state.store = some (s.replace file u) ∧
      u.Remains (some snapshot) ctx.ttl h.now (s.part u) file := by
    have hunreserved : Store.Unreserved h.latest (s.part u) :=
      fun _ _ c hc _ => hsyn c (Store.mem_sources_of_mem_part hc)
    rcases hrun.upkeep_leaves hs (hr.wellFormed hs) u hunreserved with ⟨hcold, -⟩ | hdone
    · rw [hlatest] at hcold
      cases hcold
    · rwa [hlatest] at hdone
  refine ⟨fun _ => ?_, fun _ => ?_, fun _ => ?_, fun hm => ?_, fun hf kind => ?_⟩
  · obtain ⟨file, hres, hst, hord, hfile⟩ := hleaves .flush
    refine ⟨file, hres, hst, hord, fun c => ?_⟩
    simp only [hfile, Upkeep.Leaves, Option.some.injEq, forall_eq']
    rfl
  · obtain ⟨file, hres, hst, hord, hfile⟩ := hleaves (.compact .minor)
    refine ⟨file, hres, hst, hord, fun c => ?_⟩
    simp only [hfile, Upkeep.Leaves, Option.some.injEq, forall_eq']
    rfl
  · obtain ⟨file, hres, hst, hord, hfile⟩ := hleaves (.compact .major)
    refine ⟨file, hres, hst, hord, fun c => ?_⟩
    simp only [hfile, Upkeep.Leaves, Option.some.injEq, forall_eq']
    rfl
  · exact upkeep_idle (u := .flush) hs (List.isEmpty_iff.2 hm)
  · exact upkeep_idle (u := .compact kind) hs (List.isEmpty_iff.2 hf)

/-! ### A tombstone that bears the tag of a delete marker -/

def taggedTombstone : Cell := ⟨⟨[1], [2], [3]⟩, 10, [], [Tag.tombstone, Tag.deleteMarker]⟩

def olderVersion : Cell := ⟨⟨[1], [2], [3]⟩, 5, [7], []⟩

/-- A region with a tombstone that bears the tag of a delete marker, above an older version. -/
def tagged : Host SnapshotCache :=
  (blank .messagePack).run
    [.put { row := [1], cells := [taggedTombstone, olderVersion] }, .publish (.clean 100 [])]

theorem tagged_running : tagged.Running ⟨tagged.region, {}, ()⟩ := ⟨rfl, .inr rfl, rfl⟩

theorem upkeep_exact_tagged :
    ∃ file, tagged.flush.result = .ok () ∧
      tagged.flush.state.store = some ⟨[], Store.addFile file []⟩ ∧ Run.Ordered file ∧
      ∀ c, c ∈ file ↔ c ∈ [taggedTombstone, olderVersion] ∧ (c.isTombstone = true ∨
        (Snapshot.clean 100 []).Retains {} tagged.now [taggedTombstone, olderVersion] c) :=
  (upkeep_exact ((blank_reachable _).run _) tagged_running rfl rfl (by decide)).1 (by decide)

/-- A tombstone is carried past the filter whatever other tags it bears, so it hides
nothing: the version below it stays although the tombstone is settled, valid and alive, and
tagged as a delete marker. -/
theorem flush_keeps_below_tagged_tombstone :
    tagged.store = some ⟨[taggedTombstone, olderVersion], []⟩ ∧
      tagged.latest = some (.clean 100 []) ∧ taggedTombstone.isDeleteMarker = true ∧
      taggedTombstone.timestamp ≤ (Snapshot.clean 100 []).upperBound ∧
      taggedTombstone.timestamp ∉ (Snapshot.clean 100 []).invalid ∧
      ¬TtlTable.Expired {} tagged.now taggedTombstone ∧
      taggedTombstone.column = olderVersion.column ∧
      olderVersion.timestamp < taggedTombstone.timestamp ∧
      olderVersion.isTombstone = false ∧
      olderVersion.timestamp ≤ (Snapshot.clean 100 []).upperBound ∧
      tagged.flush.state.store = some ⟨[], [[taggedTombstone, olderVersion]]⟩ := by
  refine ⟨rfl, rfl, rfl, by decide, by decide, ?_, rfl, by decide, rfl, by decide, rfl⟩
  rintro ⟨cutoff, hcutoff, -⟩
  cases hcutoff

end Host

end CellStore
