import Mathlib.Order.Bounds.Basic
import CellStore.Proofs.NormalForms
import CellStore.Proofs.RunningWriters

/-! # Members of id sets

Snapshots, transactions and the gates of retention filters get their ids as lists, from callers, from
one another or from bytes. On each of these paths the list that is held increases strictly and has
the members of the list that was given, so a search finds an id if and only if it was given. A snapshot
is refused if its two lists share an id, and the error names the smallest one.
-/
namespace CellStore

namespace IdSet

variable {id : TxId} {l given : List TxId}

/-- Look for an id in an increasing list, each time in the half that may have it. -/
def bisect (id : TxId) (l : List TxId) : Bool :=
  match h : l.drop (l.length / 2) with
  | [] => false
  | x :: back =>
    if x < id then bisect id back
    else if id < x then bisect id (l.take (l.length / 2))
    else true
termination_by l.length
decreasing_by
  · have hlength := congrArg List.length h
    rw [List.length_drop, List.length_cons] at hlength
    omega
  · have hlength := congrArg List.length h
    rw [List.length_drop, List.length_cons] at hlength
    rw [List.length_take]
    omega

/-- What is cut in front of an id of an increasing list lies below it, and what follows the id above. -/
theorem mem_cut (id : TxId) {n : Nat} {x : TxId} {back : List TxId} (h : l.Pairwise (· < ·))
    (hback : l.drop n = x :: back) : (id ∈ l ↔ id ∈ l.take n ∨ id = x ∨ id ∈ back) ∧
      (id ∈ l.take n → id < x) ∧ (id ∈ back → x < id) := by
  have hsplit := List.take_append_drop n l
  rw [hback] at hsplit
  have hpairwise := h
  rw [← hsplit, List.pairwise_append, List.pairwise_cons] at hpairwise
  obtain ⟨-, ⟨hafter, -⟩, hacross⟩ := hpairwise
  refine ⟨?_, fun hid => hacross id hid x List.mem_cons_self, hafter id⟩
  conv_lhs => rw [← hsplit, List.mem_append, List.mem_cons]

/-- The half that is left out does not have the id. -/
theorem bisect_eq_true_iff (h : l.Pairwise (· < ·)) : bisect id l = true ↔ id ∈ l := by
  fun_induction bisect id l with
  | case1 l hback =>
    have hlength := congrArg List.length hback
    rw [List.length_drop, List.length_nil] at hlength
    have hempty : l = [] := List.length_eq_zero_iff.1 (by omega)
    simp [hempty]
  | case2 l x back hback hlt ih =>
    have hincreasing : back.Pairwise (· < ·) := by
      have hdrop : (l.drop (l.length / 2)).Pairwise (· < ·) := h.sublist (List.drop_sublist _ _)
      rw [hback] at hdrop
      exact hdrop.of_cons
    obtain ⟨hmem, hfront, -⟩ := mem_cut id h hback
    rw [ih hincreasing, hmem]
    constructor
    · exact fun hid => .inr (.inr hid)
    · rintro (hid | rfl | hid)
      · exact absurd hlt (UInt64.lt_asymm (hfront hid))
      · exact absurd hlt (UInt64.lt_irrefl _)
      · exact hid
  | case3 l x back hback _ hlt ih =>
    obtain ⟨hmem, -, hafter⟩ := mem_cut id h hback
    rw [ih (h.sublist (List.take_sublist _ _)), hmem]
    constructor
    · exact .inl
    · rintro (hid | rfl | hid)
      · exact hid
      · exact absurd hlt (UInt64.lt_irrefl _)
      · exact absurd hlt (UInt64.lt_asymm (hafter hid))
  | case4 l x back hback hge hle =>
    have hid : id = x := UInt64.le_antisymm (UInt64.not_lt.1 hge) (UInt64.not_lt.1 hle)
    simp only [true_iff, (mem_cut id h hback).1]
    exact .inr (.inl hid)

/-- A set holds what a list gives. Its ids increase strictly, they are the members of the list, and
whether all of them are looked through in turn or their list is halved, an id is found if and only if
it is a member. -/
structure Holds (s : IdSet) (given : List TxId) : Prop where
  increasing : s.ids.Pairwise (· < ·)
  mem_iff : ∀ id, id ∈ s.ids ↔ id ∈ given
  contains_iff : ∀ id, s.contains id = true ↔ id ∈ given
  bisect_iff : ∀ id, bisect id s.ids = true ↔ id ∈ given

theorem holds_ofList (given : List TxId) : (ofList given).Holds given where
  increasing := (ofList given).increasing
  mem_iff _ := mem_ofList
  contains_iff _ := contains_eq_true_iff.trans mem_ofList
  bisect_iff _ := (bisect_eq_true_iff (ofList given).increasing).trans mem_ofList

end IdSet

/-! ## The paths -/

namespace Snapshot

variable {readPointer : TxId} {invalid running : List TxId} {capturedAt : Nat} {s : Snapshot}
  {e : Error}

/-- A snapshot holds the ids it is given. -/
structure Holds (s : Snapshot) (dead running : List TxId) : Prop where
  invalid : s.invalid.Holds dead
  inProgress : s.inProgress.Holds running
  isInvalid_iff : ∀ id, s.isInvalid id = true ↔ id ∈ dead
  isInProgress_iff : ∀ id, s.isInProgress id = true ↔ id ∈ running

theorem holds_of_ofLists (h : ofLists readPointer invalid running capturedAt = .ok s) :
    s.Holds invalid running := by
  obtain ⟨-, hinvalid, hrunning⟩ := of_ofLists h
  have hdead : s.invalid.Holds invalid := hinvalid ▸ IdSet.holds_ofList invalid
  have hlive : s.inProgress.Holds running := hrunning ▸ IdSet.holds_ofList running
  exact ⟨hdead, hlive, hdead.contains_iff, hlive.contains_iff⟩

/-- A search from below finds the smallest id that both lists have. -/
theorem find_shared_iff {id : TxId} :
    (IdSet.ofList invalid).ids.find? (IdSet.ofList running).contains = some id ↔
      IsLeast {id | id ∈ invalid ∧ id ∈ running} id := by
  have hincreasing := (IdSet.ofList invalid).increasing
  have hdead (id : TxId) : id ∈ (IdSet.ofList invalid).ids ↔ id ∈ invalid := IdSet.mem_ofList
  have hrunning (id : TxId) : (IdSet.ofList running).contains id = true ↔ id ∈ running :=
    IdSet.contains_eq_true_iff.trans IdSet.mem_ofList
  rw [List.find?_eq_some_iff_append, hrunning]
  constructor
  · rintro ⟨hid, before, after, hids, hbefore⟩
    rw [hids] at hdead hincreasing
    refine ⟨⟨(hdead id).1 (by simp), hid⟩, ?_⟩
    rintro other ⟨hother, hshared⟩
    rcases List.mem_append.1 ((hdead other).2 hother) with hmem | hmem
    · have hskipped := hbefore other hmem
      rw [(hrunning other).2 hshared] at hskipped
      cases hskipped
    · rcases List.mem_cons.1 hmem with rfl | hmem
      · exact UInt64.le_refl _
      · have htail := (List.pairwise_append.1 hincreasing).2.1
        exact UInt64.le_of_lt ((List.pairwise_cons.1 htail).1 other hmem)
  · rintro ⟨⟨hid, hshared⟩, hleast⟩
    obtain ⟨before, after, hids⟩ := List.append_of_mem ((hdead id).2 hid)
    rw [hids] at hdead hincreasing
    refine ⟨hshared, before, after, hids, fun other hother => ?_⟩
    have hlt : other < id := (List.pairwise_append.1 hincreasing).2.2 other hother id List.mem_cons_self
    rw [Bool.not_eq_true', Bool.eq_false_iff, Ne, hrunning]
    intro hother'
    have hle : id ≤ other := hleast ⟨(hdead other).1 (List.mem_append_left _ hother), hother'⟩
    exact UInt64.not_lt.2 hle hlt

theorem ofLists_eq_error_iff : ofLists readPointer invalid running capturedAt = .error e ↔
    ∃ id, IsLeast {id | id ∈ invalid ∧ id ∈ running} id ∧ e = overlap id := by
  simp only [ofLists, ← find_shared_iff]
  split
  · rename_i id hfind
    simp [hfind, eq_comm]
  · rename_i hfind
    simp [hfind]

theorem exists_least_shared :
    (∃ id, IsLeast {id | id ∈ invalid ∧ id ∈ running} id) ↔ ∃ id ∈ invalid, id ∈ running := by
  simp only [← find_shared_iff, ← Option.isSome_iff_exists, List.find?_isSome]
  simp [← IdSet.mem_def]

end Snapshot

namespace Transaction

variable {s : Snapshot} {dead running : List TxId}

/-- A transaction holds the ids it is given. -/
structure Holds (t : Transaction) (hidden dead : List TxId) : Prop where
  excluded : t.excluded.Holds hidden
  invalid : t.invalid.Holds dead
  isExcluded_iff : ∀ id, t.isExcluded id = true ↔ id ∈ hidden
  isInvalid_iff : ∀ id, t.isInvalid id = true ↔ id ∈ dead

theorem holds_of_sets {t : Transaction} {hidden : List TxId} (hexcluded : t.excluded.Holds hidden)
    (hinvalid : t.invalid.Holds dead) : t.Holds hidden dead :=
  ⟨hexcluded, hinvalid, hexcluded.contains_iff, hinvalid.contains_iff⟩

theorem holds_ofLists (id upperBound : TxId) (excluded invalid : List TxId) :
    (ofLists id upperBound excluded invalid).Holds excluded invalid :=
  holds_of_sets (IdSet.holds_ofList excluded) (IdSet.holds_ofList invalid)

theorem holds_start (id : TxId) (h : s.Holds dead running) : (start id s).Holds running dead :=
  holds_of_sets h.inProgress h.invalid

theorem holds_boundary (h : s.Holds dead running) : (boundary s).Holds [] dead :=
  holds_of_sets (IdSet.holds_ofList []) h.invalid

end Transaction

namespace Gate

/-- A gate holds the ids it is given: above its bound it turns away what they wrote, and no more. -/
structure Holds (g : Gate) (dead : List TxId) : Prop where
  invalid : g.invalid.Holds dead
  rule_iff : ∀ c, (∃ g', g.rule c = some (.skip, g')) ↔ g.boundary < c.timestamp ∧ c.timestamp ∈ dead

theorem holds_of_set {g : Gate} {dead : List TxId} (h : g.invalid.Holds dead) : g.Holds dead := by
  refine ⟨h, fun c => ?_⟩
  rw [← h.contains_iff]
  unfold rule
  split_ifs with hlt hdead
  · simp [hlt, hdead]
  · simp [hdead]
  · simp [hlt]

end Gate

/-- What a retention filter holds does not change while it judges. -/
theorem Retention.feed_holds {φ : Type} [CellFilter φ] {r : Retention φ} {dead : List TxId}
    (h : r.gate.invalid.Holds dead) (cells : List Cell) :
    (CellFilter.feed r cells).2.gate.Holds dead := by
  have hinvalid := (Gate.uncounted_eq_iff.1 (feed_state r cells).1).2
  exact Gate.holds_of_set (hinvalid ▸ h)

namespace IdSet

/-- Id sets are faithful to the lists they come from, whatever order the ids are in and however often
they are repeated. A snapshot is refused exactly if its lists share an id, and the smallest one is
named. Snapshots, transactions that are built, started or decoded, the reader at a bound and the gates of
retention filters hold the ids they were given, and answer for an id whether it was among them. -/
theorem faithful_on_every_path :
    (∀ readPointer invalid running capturedAt,
      ((∃ e, Snapshot.ofLists readPointer invalid running capturedAt = .error e) ↔
        ∃ id ∈ invalid, id ∈ running) ∧
      (∀ e, Snapshot.ofLists readPointer invalid running capturedAt = .error e ↔
        ∃ id, IsLeast {id | id ∈ invalid ∧ id ∈ running} id ∧ e = Snapshot.overlap id) ∧
      ∀ s, Snapshot.ofLists readPointer invalid running capturedAt = .ok s → s.Holds invalid running ∧
        (∀ id, (Transaction.start id s).Holds running invalid) ∧
        (Transaction.boundary s).Holds [] invalid ∧
        ∀ ttl purpose now cells,
          (CellFilter.feed (Retention.ofSnapshot s ttl purpose now) cells).2.gate.Holds invalid) ∧
    (∀ id upperBound excluded invalid,
      (Transaction.ofLists id upperBound excluded invalid).Holds excluded invalid) ∧
    (∀ (w : Wire) bytes t, (Codec.ofWire w).decode bytes = .ok t →
      ∃ p rest, w.read bytes = .ok (p, rest) ∧ t.Holds p.excluded p.invalid) ∧
    (∀ (p : Payload) bytes, p.Spelled bytes → ∀ rest,
      ∃ t, Codec.messagePack.decode (bytes ++ rest) = .ok t ∧ t.Holds p.excluded p.invalid) ∧
    ∀ (φ : Type) [CellFilter φ] (inner : φ) (boundary : TxId) (invalid : List TxId) (cells : List Cell),
      (CellFilter.feed (⟨.ofList boundary invalid, inner⟩ : Retention φ) cells).2.gate.Holds invalid := by
  refine ⟨fun readPointer invalid running capturedAt => ⟨?_, ?_, fun s hs => ?_⟩,
    Transaction.holds_ofLists, fun w bytes t ht => ?_, fun p bytes hp rest => ?_, ?_⟩
  · rw [← Snapshot.exists_least_shared]
    simp [Snapshot.ofLists_eq_error_iff, exists_comm]
  · intro e
    exact Snapshot.ofLists_eq_error_iff
  · have hholds := Snapshot.holds_of_ofLists hs
    refine ⟨hholds, fun id => Transaction.holds_start id hholds, Transaction.holds_boundary hholds, ?_⟩
    intro ttl purpose now cells
    exact Retention.feed_holds hholds.invalid cells
  · obtain ⟨p, rest, hread, rfl⟩ := Codec.ofWire_decode_ok_iff.1 ht
    exact ⟨p, rest, hread, Transaction.holds_ofLists ..⟩
  · refine ⟨p.transaction, ?_, Transaction.holds_ofLists ..⟩
    exact Codec.ofWire_reads MessagePack.wire_conforms hp rest
  · intro φ _ inner boundary invalid cells
    exact Retention.feed_holds (IdSet.holds_ofList invalid) cells

theorem faithful_on_every_path_shuffled :
    (∃ s, Snapshot.ofLists 100 [9, 3, TxId.last, 9] [7, 5, 7] 0 = .ok s ∧
      s.Holds [9, 3, TxId.last, 9] [7, 5, 7] ∧
      (Transaction.start 200 s).Holds [7, 5, 7] [9, 3, TxId.last, 9]) ∧
    Codec.shuffled.Spelled Codec.shuffledMap ∧
    ∃ t p rest, Codec.messagePack.decode (Codec.shuffledMap ++ [0xff]) = .ok t ∧
      MessagePack.wire.read (Codec.shuffledMap ++ [0xff]) = .ok (p, rest) ∧
      t.Holds p.excluded p.invalid ∧ t.Holds [9, 9, 7] [3, 3] := by
  obtain ⟨hsnapshots, -, hdecoded, hspelled, -⟩ := faithful_on_every_path
  obtain ⟨s, hs⟩ : ∃ s, Snapshot.ofLists 100 [9, 3, TxId.last, 9] [7, 5, 7] 0 = .ok s := ⟨_, rfl⟩
  obtain ⟨hholds, hstart, -⟩ := (hsnapshots _ _ _ _).2.2 s hs
  obtain ⟨t, ht, hgiven⟩ := hspelled Codec.shuffled Codec.shuffledMap Codec.shuffled_spelled [0xff]
  obtain ⟨p, rest, hp, hread⟩ := hdecoded _ _ t ht
  exact ⟨⟨s, hs, hholds, hstart 200⟩, Codec.shuffled_spelled, t, p, rest, ht, hp, hread, hgiven⟩

end IdSet

end CellStore
