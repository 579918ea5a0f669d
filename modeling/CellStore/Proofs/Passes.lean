import CellStore.Proofs.Hints
import CellStore.Proofs.Transparency

/-! # Passes over a stream

A pass puts the cells of a stream to the filter of a snapshot and takes what is accepted: of the
unsettled cells those of valid writers, and of the settled ones the versions that stand and that no
standing delete marker buries. A pass that writes the markers back leaves a later pass all that it
asks about. What stands for the later snapshot has stood for the earlier one or was not settled yet,
and the newest marker that stands for it was buried by no other.
-/
namespace CellStore

namespace Retention

variable {φ : Type} [CellFilter φ] {s : Snapshot} {ttl : TtlTable} {purpose : Purpose} {now : TxId}
  {before after cells : List Cell} {c : Cell}

/-- A retention filter keeps its gate, and its inner filter is fed the settled cells. -/
theorem feed_state (r : Retention φ) (cells : List Cell) :
    (CellFilter.feed r cells).2.gate.uncounted = r.gate.uncounted ∧ (CellFilter.feed r cells).2.inner =
      (CellFilter.feed r.inner (cells.filter (·.timestamp ≤ r.gate.boundary))).2 := by
  induction cells generalizing r with
  | nil => exact ⟨rfl, rfl⟩
  | cons c cs ih =>
    obtain ⟨hgate, hinner⟩ := ih (CellFilter.step r c).2
    rw [CellFilter.feed_cons, hgate, hinner]
    cases hrule : r.gate.rule c with
    | none =>
      have hle := Gate.rule_eq_none.1 hrule
      have hstep : (CellFilter.step r c).2 = { r with inner := (CellFilter.step r.inner c).2 } := by
        simp [CellFilter.step, Retention.step, hrule]
      rw [hstep, List.filter_cons_of_pos (by simpa using hle), CellFilter.feed_cons]
      exact ⟨rfl, rfl⟩
    | some p =>
      obtain ⟨decision, gate⟩ := p
      have hcounts := Gate.uncounted_of_rule hrule
      have hle : ¬c.timestamp ≤ r.gate.boundary := fun hle => by
        rw [Gate.rule_eq_none.2 hle] at hrule
        cases hrule
      have hstep : (CellFilter.step r c).2 = { r with gate } := by
        simp [CellFilter.step, Retention.step, hrule]
      have hbound : gate.boundary = r.gate.boundary := (Gate.uncounted_eq_iff.1 hcounts).1
      rw [hstep, List.filter_cons_of_neg (by simpa using hle)]
      dsimp only
      rw [hbound]
      exact ⟨hcounts, rfl⟩

variable (s ttl purpose now) in
/-- A new filter of a snapshot keeps of the unsettled cells those of valid writers, and of the
settled ones what the reader at the bound keeps among them. -/
theorem feed_decides (h : Cell.InStoreOrder (before ++ c :: after)) : ∃ decision,
    (CellFilter.step (CellFilter.feed (ofSnapshot s ttl purpose now) before).2 c).1 = .ok decision ∧
      (decision = .accept ↔ s.upperBound < c.timestamp ∧ c.timestamp ∉ s.invalid ∨
        c.timestamp ≤ s.upperBound ∧ View.Accepts ⟨Transaction.boundary s, ttl, now⟩ purpose
          {d | d ∈ before ∧ d.timestamp ≤ s.upperBound} c) := by
  obtain ⟨hgate, hinner⟩ := feed_state (ofSnapshot s ttl purpose now) before
  generalize (CellFilter.feed (ofSnapshot s ttl purpose now) before).2 = r at hgate hinner
  obtain ⟨hbound, hinvalid⟩ : r.gate.boundary = s.upperBound ∧ r.gate.invalid = s.invalid :=
    Gate.uncounted_eq_iff.1 hgate
  by_cases hb : c.timestamp ≤ s.upperBound
  · have hsublist := (List.filter_sublist (l := before) (p := (·.timestamp ≤ s.upperBound))).append_right
      (c :: after)
    obtain ⟨decision, hok, haccept⟩ := Visibility.feed_accepts ⟨Transaction.boundary s, ttl, now⟩ purpose
      (h.sublist hsublist)
    refine ⟨decision, ?_, ?_⟩
    · simp only [CellFilter.step, Retention.step, Gate.rule_eq_none.2 (hbound ▸ hb), hinner]
      exact hok
    · simpa [UInt64.not_lt.2 hb, hb] using haccept
  · have hlt := UInt64.not_le.1 hb
    refine ⟨if s.invalid.contains c.timestamp then .skip else .accept, ?_, ?_⟩
    · simp only [CellFilter.step, Retention.step, Gate.rule, hbound, hinvalid, hlt, if_true]
      split_ifs <;> rfl
    · have hvalid : s.invalid.contains c.timestamp = true ↔ c.timestamp ∈ s.invalid :=
        IdSet.contains_eq_true_iff
      split_ifs with hdead <;> simp_all

/-- The filter as a tree. -/
def tree (r : Retention Visibility) : Filter := .retention r.gate (.visibility r.inner)

theorem step_tree (r : Retention Visibility) (c : Cell) :
    CellFilter.step r.tree c = ((CellFilter.step r c).1, (CellFilter.step r c).2.tree) := by
  change Filter.step (.retention r.gate (.visibility r.inner)) c = ((r.step c).1, (r.step c).2.tree)
  unfold Filter.step Retention.step
  cases r.gate.rule c <;> rfl

/-- What a snapshot keeps of a stream does not depend on whether hints are heeded. -/
theorem scan_ofSnapshot (hcells : Cell.InStrictOrder cells) (heeds : Bool) :
    CellFilter.scan heeds none (ofSnapshot s ttl purpose now) cells =
      CellFilter.scan false none (ofSnapshot s ttl purpose now) cells := by
  have hfresh : (ofSnapshot s ttl purpose now).tree.Fresh := .retention _ (.visibility _ _)
  obtain ⟨kept, hall, hheeding⟩ := (hfresh.inStep cells).scan hcells
  rw [CellFilter.scan_embed step_tree] at hall hheeding
  rw [hall]
  cases heeds
  · exact hall
  · exact hheeding

end Retention

namespace Snapshot

variable (s : Snapshot) (ttl : TtlTable) (now : TxId)

/-- The cells of a stream that a new filter of a snapshot accepts. -/
def keep (heeds : Bool) (purpose : Purpose) (cells : List Cell) : Except Error (List Cell) :=
  CellFilter.scan heeds none (Retention.ofSnapshot s ttl purpose now) cells

/-- A version of a settled valid writer that has not expired. -/
structure Stands (c : Cell) : Prop where
  settled : c.timestamp ≤ s.upperBound
  valid : c.timestamp ∉ s.invalid
  alive : ¬ttl.Expired now c

/-- Whether a standing delete marker among some cells is newer than a version. -/
def Buries (cells : List Cell) (c : Cell) : Prop :=
  ∃ m ∈ cells, m.column = c.column ∧ m.isDeleteMarker = true ∧ s.Stands ttl now m ∧
    c.timestamp < m.timestamp

/-- The rule by which a pass over a stream keeps a cell of it. -/
def Keeps (purpose : Purpose) (cells : List Cell) (c : Cell) : Prop :=
  s.upperBound < c.timestamp ∧ c.timestamp ∉ s.invalid ∨
    s.Stands ttl now c ∧ ¬s.Buries ttl now cells c ∧
      (c.isDeleteMarker = true → purpose = .retainDeletes)

variable {s ttl now} {s' : Snapshot} {now' : TxId} {purpose : Purpose} {cells : List Cell} {c : Cell}

theorem Buries.mono {cells' : List Cell} (h : s.Buries ttl now cells' c)
    (hsub : ∀ d ∈ cells', d ∈ cells) :
    s.Buries ttl now cells c := by
  obtain ⟨m, hm, hrest⟩ := h
  exact ⟨m, hsub m hm, hrest⟩

/-- To the reader at the bound the versions that stand pass. -/
theorem stands_iff (hne : c.timestamp ≠ TxId.synthetic) : s.Stands ttl now c ↔
    c.timestamp ≤ s.upperBound ∧ View.Passes ⟨Transaction.boundary s, ttl, now⟩ c := by
  constructor
  · rintro ⟨hb, hvalid, halive⟩
    exact ⟨hb, (Retention.boundary_passes_iff hb hne).2 ⟨hvalid, halive⟩⟩
  · rintro ⟨hb, hp⟩
    obtain ⟨hvalid, halive⟩ := (Retention.boundary_passes_iff hb hne).1 hp
    exact ⟨hb, hvalid, halive⟩

/-- Of a stream in strict order the reader at the bound keeps what the rule says. -/
theorem keeps_iff_accepts {before after : List Cell} (hpurpose : purpose ≠ .userScan)
    (hcells : Cell.InStrictOrder (before ++ c :: after))
    (hsyn : ∀ d ∈ before ++ c :: after, d.timestamp ≠ TxId.synthetic) :
    s.Keeps ttl now purpose (before ++ c :: after) c ↔
      s.upperBound < c.timestamp ∧ c.timestamp ∉ s.invalid ∨
        c.timestamp ≤ s.upperBound ∧ View.Accepts ⟨Transaction.boundary s, ttl, now⟩ purpose
          {d | d ∈ before ∧ d.timestamp ≤ s.upperBound} c := by
  have hc : c ∈ before ++ c :: after := List.mem_append_right before List.mem_cons_self
  have hburies : s.Buries ttl now (before ++ c :: after) c ↔
      View.Shadowed ⟨Transaction.boundary s, ttl, now⟩ {d | d ∈ before ∧ d.timestamp ≤ s.upperBound} c := by
    constructor
    · rintro ⟨m, hm, hcol, hmark, hstands, hlt⟩
      have hm' : m ∈ before := hcells.ordered.mem_left hm (Cell.key_lt_of_newer hcol hlt)
      obtain ⟨hb, hp⟩ := (stands_iff (hsyn m hm)).1 hstands
      exact ⟨m, ⟨hm', hb⟩, hcol, hp, hmark, hlt⟩
    · rintro ⟨m, ⟨hm, hb⟩, hcol, hp, hmark, hlt⟩
      have hm' : m ∈ before ++ c :: after := List.mem_append_left _ hm
      exact ⟨m, hm', hcol, hmark, (stands_iff (hsyn m hm')).2 ⟨hb, hp⟩, hlt⟩
  rw [Keeps, hburies, stands_iff (hsyn c hc), View.accepts_iff_of_compaction hpurpose,
    and_assoc]

open Classical in
/-- A pass over a stream in strict order is a filter of it by the rule. -/
theorem keep_eq_filter (hpurpose : purpose ≠ .userScan) (hcells : Cell.InStrictOrder cells)
    (hsyn : ∀ c ∈ cells, c.timestamp ≠ TxId.synthetic) (heeds : Bool) :
    s.keep ttl now heeds purpose cells = .ok (cells.filter (s.Keeps ttl now purpose cells)) := by
  rw [keep, Retention.scan_ofSnapshot hcells]
  apply CellFilter.scan_eq_filter
  rintro before c after rfl
  rw [keeps_iff_accepts hpurpose hcells hsyn]
  exact Retention.feed_decides s ttl purpose now hcells.inStoreOrder

/-- A snapshot that settles more and takes the same ids for dead among those that were settled. -/
structure Upholds (s' s : Snapshot) : Prop where
  bound : s.upperBound ≤ s'.upperBound
  invalid : ∀ x ∈ s.invalid, x ∈ s'.invalid
  settled : ∀ x ∈ s'.invalid, x ≤ s.upperBound → x ∈ s.invalid

section

variable (hup : s'.Upholds s) (hnow : now ≤ now')
include hup

theorem Upholds.valid (hc : c.timestamp ∉ s'.invalid) : c.timestamp ∉ s.invalid :=
  fun hdead => hc (hup.invalid _ hdead)

include hnow

/-- What stands later and is settled before stands before. -/
theorem Stands.before (h : s'.Stands ttl now' c) (hb : c.timestamp ≤ s.upperBound) :
    s.Stands ttl now c where
  settled := hb
  valid := hup.valid h.valid
  alive he := h.alive (he.later hnow)

omit hnow in
/-- What was buried by a marker before is buried by it later, or has expired. -/
theorem Stands.buried_later (h : s'.Stands ttl now' c) (hburied : s.Buries ttl now cells c) :
    s'.Buries ttl now' cells c := by
  obtain ⟨m, hm, hcol, hmark, hstands, hlt⟩ := hburied
  refine ⟨m, hm, hcol, hmark, ⟨?_, ?_, ?_⟩, hlt⟩
  · exact UInt64.le_trans hstands.settled hup.bound
  · exact fun hdead => hstands.valid (hup.settled _ hdead hstands.settled)
  · -- A marker does not expire before what it buries.
    exact fun he => h.alive (he.older hcol (UInt64.le_of_lt hlt))

/-- What stands later and is not buried then was kept before, markers included. -/
theorem Stands.kept_before (h : s'.Stands ttl now' c) (hburied : ¬s'.Buries ttl now' cells c) :
    s.Keeps ttl now .retainDeletes cells c := by
  by_cases hb : c.timestamp ≤ s.upperBound
  · exact .inr ⟨h.before hup hnow hb, fun hbefore => hburied (h.buried_later hup hbefore),
      fun _ => rfl⟩
  · exact .inl ⟨UInt64.not_le.1 hb, hup.valid h.valid⟩

theorem Keeps.kept_before (h : s'.Keeps ttl now' purpose cells c) :
    s.Keeps ttl now .retainDeletes cells c := by
  rcases h with ⟨hlt, hvalid⟩ | ⟨hstands, hburied, -⟩
  · exact .inl ⟨UInt64.lt_of_le_of_lt hup.bound hlt, hup.valid hvalid⟩
  · exact hstands.kept_before hup hnow hburied

/-- What is buried later is buried by a marker that an earlier pass has kept. -/
theorem Buries.by_kept (h : s'.Buries ttl now' cells c) : ∃ m ∈ cells,
    s.Keeps ttl now .retainDeletes cells m ∧ m.column = c.column ∧ m.isDeleteMarker = true ∧
      s'.Stands ttl now' m ∧ c.timestamp < m.timestamp := by
  obtain ⟨m, hm, ⟨hcol, hmark, hstands, hlt⟩, hnewest⟩ := Cell.exists_newest h
  have hburied : ¬s'.Buries ttl now' cells m := by
    rintro ⟨d, hd, hdcol, hdmark, hdstands, hdlt⟩
    have hle := hnewest d hd ⟨hdcol.trans hcol, hdmark, hdstands, UInt64.lt_trans hlt hdlt⟩
    exact UInt64.not_lt.2 hle hdlt
  exact ⟨m, hm, hstands.kept_before hup hnow hburied, hcol, hmark, hstands, hlt⟩

/-- A later pass keeps the same of a stream and of what an earlier pass kept of it. -/
theorem keeps_iff_of_kept {kept : List Cell}
    (hkept : ∀ d, d ∈ kept ↔ d ∈ cells ∧ s.Keeps ttl now .retainDeletes cells d) :
    s'.Keeps ttl now' purpose kept c ↔ s'.Keeps ttl now' purpose cells c := by
  have hburies : s'.Buries ttl now' kept c ↔ s'.Buries ttl now' cells c := by
    refine ⟨fun h => h.mono fun d hd => ((hkept d).1 hd).1, fun h => ?_⟩
    obtain ⟨m, hm, hmkept, hrest⟩ := h.by_kept hup hnow
    exact ⟨m, (hkept m).2 ⟨hm, hmkept⟩, hrest⟩
  rw [Keeps, Keeps, hburies]

end

/-- Passes that write delete markers back are absorbed by later ones. -/
theorem keep_absorbs (ttl : TtlTable) (hup : s'.Upholds s) (hnow : now ≤ now')
    (hpurpose : purpose ≠ .userScan) (hcells : Cell.InStrictOrder cells)
    (hsyn : ∀ c ∈ cells, c.timestamp ≠ TxId.synthetic) :
    (∃ first last, (∀ heeds, s.keep ttl now heeds .retainDeletes cells = .ok first) ∧
      (∀ heeds, s'.keep ttl now' heeds purpose first = .ok last) ∧
        ∀ heeds, s'.keep ttl now' heeds purpose cells = .ok last) ∧
    ∃ rest, (∀ heeds, s.keep ttl now heeds .dropDeletes cells = .ok rest) ∧
      ∀ heeds, s.keep ttl now heeds .dropDeletes rest = .ok rest := by
  classical
  have hkeep (s : Snapshot) (now : TxId) {purpose : Purpose} (hpurpose : purpose ≠ .userScan)
      {kept : List Cell} (hkept : kept.Sublist cells) (heeds : Bool) :
      s.keep ttl now heeds purpose kept = .ok (kept.filter (s.Keeps ttl now purpose kept)) :=
    keep_eq_filter hpurpose (hcells.sublist hkept) (fun c hc => hsyn c (hkept.subset hc)) heeds
  constructor
  · refine ⟨_, _, hkeep s now (by decide) (.refl cells), fun heeds => ?_,
      hkeep s' now' hpurpose (.refl cells)⟩
    rw [hkeep s' now' hpurpose List.filter_sublist heeds, List.filter_filter]
    refine congrArg Except.ok (List.filter_congr fun c hc => ?_)
    have hmem (d : Cell) : d ∈ cells.filter (s.Keeps ttl now .retainDeletes cells) ↔
        d ∈ cells ∧ s.Keeps ttl now .retainDeletes cells d := by simp
    rw [← Bool.decide_and, decide_eq_decide, keeps_iff_of_kept hup hnow hmem]
    exact and_iff_left_of_imp fun h => h.kept_before hup hnow
  · refine ⟨_, hkeep s now (by decide) (.refl cells), fun heeds => ?_⟩
    rw [hkeep s now (by decide) List.filter_sublist heeds, List.filter_filter]
    refine congrArg Except.ok (List.filter_congr fun c hc => ?_)
    rw [← Bool.decide_and, decide_eq_decide]
    refine and_iff_right_of_imp fun h => h.imp id ?_
    rintro ⟨hstands, hburied, hmark⟩
    exact ⟨hstands, fun h => hburied (h.mono fun d hd => (List.mem_filter.1 hd).1), hmark⟩

/-- A snapshot that is settled up to 14, and one that is settled up to 24 after 18 has died. -/
def upToFourteen : Snapshot := ⟨20, .ofList [3], .ofList [15], 0, by simp [← IdSet.mem_def]⟩

def upToTwentyFour : Snapshot := ⟨30, .ofList [3, 18], .ofList [25], 0, by simp [← IdSet.mem_def]⟩

theorem upToTwentyFour_upholds : upToTwentyFour.Upholds upToFourteen where
  bound := by decide
  invalid x hx := by simp_all [upToFourteen, upToTwentyFour]
  settled x hx hle := by
    have hlater : ¬(18 : TxId) ≤ upToFourteen.upperBound := by decide
    simp only [upToFourteen, upToTwentyFour, IdSet.mem_ofList] at hx ⊢
    grind

/-- A column with two delete markers, one of which settles between the two snapshots, a column with a
version that expires in the meantime, and a column with a marker and a version that it buries. -/
def rewritten : List Cell :=
  let column : Column := ⟨[1], [2], [3]⟩
  [⟨column, 26, [7], []⟩, ⟨column, 18, [7], []⟩, ⟨column, 16, [], [Tag.deleteMarker]⟩,
    ⟨column, 10, [], [Tag.deleteMarker]⟩, ⟨column, 8, [7], []⟩, ⟨⟨[1], [2], [4]⟩, 6, [7], []⟩,
    ⟨⟨[1], [4], [3]⟩, 12, [], [Tag.deleteMarker]⟩, ⟨⟨[1], [4], [3]⟩, 9, [7], []⟩]

/-- A millisecond to live in one family. -/
def brief : TtlTable := ⟨[([2], 1)]⟩

example : (upToFourteen.keep brief 1000005 false .retainDeletes rewritten).map
    (·.map (·.timestamp.toNat)) = .ok [26, 18, 16, 10, 6, 12] := rfl

theorem keep_absorbs_rewritten : Cell.InStrictOrder rewritten ∧
    (∀ c ∈ rewritten, c.timestamp ≠ TxId.synthetic) ∧
    (∃ first last,
      (∀ heeds, upToFourteen.keep brief 1000005 heeds .retainDeletes rewritten = .ok first) ∧
      (∀ heeds, upToTwentyFour.keep brief 1000007 heeds .dropDeletes first = .ok last) ∧
        ∀ heeds, upToTwentyFour.keep brief 1000007 heeds .dropDeletes rewritten = .ok last) ∧
    ∃ rest, (∀ heeds, upToFourteen.keep brief 1000005 heeds .dropDeletes rewritten = .ok rest) ∧
      ∀ heeds, upToFourteen.keep brief 1000005 heeds .dropDeletes rest = .ok rest := by
  have hcells : Cell.InStrictOrder rewritten := by decide
  have hsyn : ∀ c ∈ rewritten, c.timestamp ≠ TxId.synthetic := by decide
  exact ⟨hcells, hsyn, keep_absorbs brief upToTwentyFour_upholds (by decide) (by decide) hcells hsyn⟩

end Snapshot

end CellStore
