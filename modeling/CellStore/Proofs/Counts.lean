import CellStore.Proofs.Rejections

/-! # What a scan counts

Every cell that a filter answers with a decision is counted once, as included or as skipped, and what
is skipped is counted once more by its reason. The versions a read passes over because a newer
one has been shown have no count of their own, but a rule on the stream tells how many they are. A
retention filter counts what it decides itself and leaves the rest to its inner filter, so its counts
and those of the inner filter make up all decisions.
-/
namespace CellStore

namespace View

variable {v : View} {before : List Cell} {c : Cell} {found : Finding}

instance (v : View) (c : Cell) : Decidable (v.Passes c) :=
  decidable_of_iff _ obstacle_eq_none_iff

/-- A version that a read passes over. It passes and no delete marker hides it, but a version of its
column passed before it, and the reader did not write it. -/
@[mk_iff]
structure PassesOver (v : View) (before : List Cell) (c : Cell) : Prop where
  passes : v.Passes c
  unshadowed : ¬∃ m ∈ before, m.column = c.column ∧ v.Passes m ∧ m.isDeleteMarker = true ∧
    c.timestamp < m.timestamp
  version : c.isDeleteMarker = false
  foreign : c.timestamp ≠ v.reader.id
  preceded : ∃ d ∈ before, d.column = c.column ∧ v.Passes d

instance (v : View) (before : List Cell) (c : Cell) : Decidable (v.PassesOver before c) :=
  decidable_of_iff' _ (v.passesOver_iff before c)

/-- How many of some cells a read passes over, given the cells before them. -/
def passedOver (v : View) (before : List Cell) : List Cell → Nat
  | [] => 0
  | c :: cs => (if v.PassesOver before c then 1 else 0) + passedOver v (before ++ [c]) cs

theorem Finds.older_iff (h : v.Finds {d | d ∈ before} c found) :
    found = .older ↔ v.PassesOver before c := by
  cases h with
  | shadowed hs => exact ⟨(nomatch ·), fun h => absurd hs h.unshadowed⟩
  | hidden o hs hp => exact ⟨(nomatch ·), fun h => absurd h.passes hp⟩
  | marker hs hp hm => exact ⟨(nomatch ·), fun h => absurd (hm.symm.trans h.version) (by decide)⟩
  | newest hs hp hm hn =>
    exact ⟨(nomatch ·), fun h => hn.elim (absurd · h.foreign) (absurd h.preceded)⟩
  | older hs hp hm ho hd => exact ⟨fun _ => ⟨hp, hs, hm, ho, hd⟩, fun _ => rfl⟩

end View

/-- What is accepted: what is shown, the markers that a scan writes back, and the older versions for
all scans that are no reads. -/
theorem Visibility.accepts_finding_iff (f : Visibility) (c : Cell) (found : Finding) :
    f.decide c found = .accept ↔ found = .newest ∨ found = .marker ∧ f.purpose = .retainDeletes ∨
      found = .older ∧ f.purpose ≠ .userScan := by
  cases found with
  | shadowed => simp [decide]
  | hidden o => simp [decide]
  | marker => simp [decide, Purpose.retainsDeleteMarkers]
  | newest => simp [decide]
  | older =>
    have hleft : (if f.view.reader.id < c.timestamp then Decision.skip else .skipColumn) ≠ .accept := by
      split_ifs <;> decide
    cases hp : f.purpose <;> simp [decide, hp, Purpose.retainsVersions, hleft]

namespace Stats

variable {accepted decided older : Nat}

theorem count_eq (s : Stats) (d : Decision) : s.count d =
    { s with
      included := s.included + if d = .accept then 1 else 0
      skipped := s.skipped + if d = .accept then 0 else 1 } := by
  cases d <;> rfl

theorem note_decisions (s : Stats) (purpose : Purpose) (found : Finding) :
    (s.note purpose found).included = s.included ∧ (s.note purpose found).skipped = s.skipped := by
  cases found with
  | hidden o => cases o <;> exact ⟨rfl, rfl⟩
  | _ => exact ⟨rfl, rfl⟩

/-- What the counts of a scan say of the cells that were accepted, of all those decided on, and of
the versions passed over. -/
structure Accounts (s : Stats) (purpose : Purpose) (accepted decided older : Nat) : Prop where
  included : s.included = accepted
  total : s.included + s.skipped = decided
  purgeEligible : s.purgeEligible = if purpose = .dropDeletes then s.expired else 0
  skipped : s.skipped = s.excluded + s.future + s.invalid + s.expired + s.shadowed +
    (if purpose = .retainDeletes then 0 else s.deleteMarkers) +
    if purpose = .userScan then older else 0
  deleteMarkers : s.deleteMarkers ≤ decided

/-- Judging one more cell keeps the accounts. -/
theorem Accounts.judge {f : Visibility} (h : f.stats.Accounts f.purpose accepted decided older)
    (c : Cell) (found : Finding) :
    ((f.stats.note f.purpose found).count (f.decide c found)).Accounts f.purpose
      (accepted + if f.decide c found = .accept then 1 else 0) (decided + 1)
      (older + if found = .older then 1 else 0) := by
  obtain ⟨hincluded, htotal, hpurged, hskipped, hmarkers⟩ := h
  rw [count_eq]
  simp only [Visibility.accepts_finding_iff]
  cases found with
  | shadowed => constructor <;> simp [note] <;> omega
  | hidden o =>
    cases hp : f.purpose <;> cases o <;> constructor <;> simp_all [note, Purpose.purges] <;> omega
  | marker => cases hp : f.purpose <;> constructor <;> simp_all [note] <;> omega
  | newest => constructor <;> simp_all [note] <;> omega
  | older => cases hp : f.purpose <;> constructor <;> simp_all [note] <;> omega

/-- All counts of a scan. -/
def counters (s : Stats) : List Nat :=
  [s.included, s.skipped, s.excluded, s.future, s.invalid, s.expired, s.purgeEligible, s.shadowed,
    s.deleteMarkers]

theorem Accounts.counters_le {s : Stats} {purpose : Purpose}
    (h : s.Accounts purpose accepted decided older) : ∀ n ∈ s.counters, n ≤ decided := by
  obtain ⟨hincluded, htotal, hpurged, hskipped, hmarkers⟩ := h
  have hpurge : s.purgeEligible ≤ s.expired := by
    rw [hpurged]
    split_ifs <;> omega
  simp only [counters, List.forall_mem_cons, List.not_mem_nil, false_implies, implies_true, and_true]
  omega

end Stats

namespace Visibility

variable {f : Visibility} {before : List Cell} {judged : Set Cell} {c : Cell}
  {accepted decided older : Nat}

/-- A cell that may come next is counted as what it is found to be. -/
theorem step_counts (h : f.Follows judged) (hc : c.ComesAfter judged) :
    ∃ found, f.view.Finds judged c found ∧ (f.step c).1 = .ok (f.decide c found) ∧
      (f.step c).2.stats = (f.stats.note f.purpose found).count (f.decide c found) := by
  obtain ⟨p, hp, hcol, -, hrecalls⟩ := enter_recalls h hc
  refine ⟨p.find c, Place.find_finds hrecalls hcol, ?_⟩
  simp only [step_of_enter hp, and_self]

theorem step_total (f : Visibility) (c : Cell) :
    (f.step c).2.stats.included + (f.step c).2.stats.skipped =
      f.stats.included + f.stats.skipped + if (f.step c).1.isOk then 1 else 0 := by
  cases henter : Place.enter f.place c with
  | error e =>
    rw [step_of_enter_error henter]
    rfl
  | ok p =>
    rw [step_of_enter henter]
    obtain ⟨hincluded, hskipped⟩ := f.stats.note_decisions f.purpose (p.find c)
    have hok : Except.isOk (.ok (f.decide c (p.find c)) : Verdict) = true := rfl
    simp only [Stats.count_eq, hincluded, hskipped, hok, if_true]
    split_ifs <;> omega

/-- A filter that has judged some cells keeps its accounts over any others. -/
theorem Follows.feed_accounts (h : f.Follows {d | d ∈ before})
    (hs : f.stats.Accounts f.purpose accepted decided older) (cells : List Cell) :
    (CellFilter.feed f cells).2.stats.Accounts f.purpose
      (accepted + (CellFilter.feed f cells).1.count (.ok .accept))
      (decided + (CellFilter.feed f cells).1.countP (·.isOk))
      (older + f.view.passedOver before (CellFilter.decided f cells)) := by
  induction cells generalizing f before accepted decided older with
  | nil => exact hs
  | cons c cs ih =>
    have hstep : CellFilter.step f c = f.step c := rfl
    rw [CellFilter.feed_cons, CellFilter.decided_cons, hstep]
    cases hanswer : (f.step c).1 with
    | error e =>
      have herror : (f.step c).1.isOk = false := by
        rw [hanswer]
        rfl
      have hrest := ih h hs
      rw [step_state_of_error herror]
      simpa [Except.isOk, Except.toBool] using hrest
    | ok decision =>
      have hok : (f.step c).1.isOk = true := by
        rw [hanswer]
        rfl
      obtain ⟨found, hfound, hdecision, hcounts⟩ := step_counts h (h.comesAfter hok)
      obtain ⟨-, -, -, hfollows, hview, hpurpose⟩ := step_finds h (h.comesAfter hok)
      have hset : insert c {d | d ∈ before} = {d | d ∈ before ++ [c]} := by
        ext d
        simp [or_comm]
      rw [hset] at hfollows
      have hjudged := hs.judge c found
      rw [← hcounts, ← hpurpose] at hjudged
      have hrest := ih hfollows hjudged
      have hsame : f.decide c found = decision := by
        rw [hdecision] at hanswer
        exact Except.ok.inj hanswer
      have hbehind : (if f.view.PassesOver before c then 1 else 0) =
          if found = .older then 1 else 0 := by
        simp only [hfound.older_iff]
      rw [hpurpose, hview, hsame] at hrest
      have hok' : Except.isOk (.ok decision : Verdict) = true := rfl
      simp only [hok', if_true, List.countP_cons, List.count_cons, View.passedOver, hbehind,
        beq_iff_eq, Except.ok.injEq]
      simpa only [Nat.add_assoc, Nat.add_comm, Nat.add_left_comm] using hrest

end Visibility

namespace Retention

variable (r : Retention Visibility) (c : Cell)

/-- How many cells the gate and the filter behind it count. -/
def tally : Nat :=
  r.gate.retainedUnsettled + r.gate.droppedInvalid + r.inner.stats.included + r.inner.stats.skipped

/-- A cell is counted in front or behind, and never in both places. -/
theorem step_tally : (r.step c).2.tally = r.tally + if (r.step c).1.isOk then 1 else 0 := by
  unfold step
  cases hrule : r.gate.rule c with
  | some ruled =>
    obtain ⟨decision, gate⟩ := ruled
    have hok : Except.isOk (.ok decision : Verdict) = true := rfl
    unfold Gate.rule at hrule
    split_ifs at hrule <;> cases hrule <;> simp only [tally, hok, if_true] <;> omega
  | none =>
    have hinner := Visibility.step_total r.inner c
    change (r.inner.step c).2.stats.included + _ = _ at hinner
    change r.gate.retainedUnsettled + r.gate.droppedInvalid + (r.inner.step c).2.stats.included +
      (r.inner.step c).2.stats.skipped = r.tally + if (r.inner.step c).1.isOk then 1 else 0
    unfold tally
    omega

theorem feed_tally (cells : List Cell) : (CellFilter.feed r cells).2.tally =
    r.tally + (CellFilter.feed r cells).1.countP (·.isOk) := by
  induction cells generalizing r with
  | nil => rfl
  | cons c cs ih =>
    have hstep : CellFilter.step r c = r.step c := rfl
    rw [CellFilter.feed_cons, List.countP_cons, hstep, ih, r.step_tally c]
    omega

end Retention

namespace Visibility

/-- Every cell is counted exactly once. Fed any cells, some of them perhaps refused, a new filter has
counted what it accepted and what it skipped, and with them all cells that it decided on. What it
skipped are the hidden and shadowed versions, the delete markers where they are not written back, and
the versions that a read passed over. What is refused counts nowhere, and a version that follows
refused ones only is not passed over. No count exceeds the number of cells, so none leaves the word
before that does. A new retention filter has counted all cells that it decided on, each either above
its bound or in its inner filter. -/
theorem counts_every_cell_once (v : View) (purpose : Purpose) (cells : List Cell) :
    (CellFilter.feed (fresh v purpose) cells).2.stats.Accounts purpose
      ((CellFilter.feed (fresh v purpose) cells).1.count (.ok .accept))
      ((CellFilter.feed (fresh v purpose) cells).1.countP (·.isOk))
      (v.passedOver [] (CellFilter.decided (fresh v purpose) cells)) ∧
    (∀ n ∈ (CellFilter.feed (fresh v purpose) cells).2.stats.counters, n ≤ cells.length) ∧
    ∀ (s : Snapshot) (ttl : TtlTable) (now : TxId),
      (CellFilter.feed (Retention.ofSnapshot s ttl purpose now) cells).2.tally =
        (CellFilter.feed (Retention.ofSnapshot s ttl purpose now) cells).1.countP (·.isOk) := by
  have hfollows : (fresh v purpose).Follows {d | d ∈ []} := by
    change {d | d ∈ []} = ∅
    simp
  have hnothing : (fresh v purpose).stats.Accounts purpose 0 0 0 := by
    constructor <;> simp [fresh]
  have haccounts := hfollows.feed_accounts hnothing cells
  simp only [Nat.zero_add] at haccounts
  refine ⟨haccounts, fun n hn => ?_, fun s ttl now => ?_⟩
  · calc n ≤ (CellFilter.feed (fresh v purpose) cells).1.countP (·.isOk) := haccounts.counters_le n hn
      _ ≤ (CellFilter.feed (fresh v purpose) cells).1.length := List.countP_le_length
      _ = cells.length := CellFilter.feed_length _ cells
  · have htally := (Retention.ofSnapshot s ttl purpose now).feed_tally cells
    have hzero : (Retention.ofSnapshot s ttl purpose now).tally = 0 := rfl
    rwa [hzero, Nat.zero_add] at htally

/-- A read of the stream with ties skips five cells, and the version tied with the marker is the one
that has no count of its own. -/
example : (CellFilter.feed (fresh .ofTwenty .userScan) tiedStream).2.stats =
      { included := 2, skipped := 5, excluded := 1, invalid := 1, shadowed := 1, deleteMarkers := 1 } ∧
    View.ofTwenty.passedOver [] tiedStream = 1 := by
  decide

end Visibility

end CellStore
