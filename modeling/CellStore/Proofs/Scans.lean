import CellStore.Proofs.Streams
import CellStore.Proofs.Sweeping

/-! # Hosts that heed hints

A host puts the cells of a stream to a filter and takes those that are accepted. When a hint tells
it to leave a column it may keep the rest of the column from the filter, as the sweeps of a region
do, or it may go on as if nothing had been said. What a visibility filter knows is about one column:
after a hint it accepts nothing more of that column, and with a later one all of it is forgotten.
-/
namespace CellStore

namespace Cell

variable {a b : Cell}

/-- Columns do not go back along the cells, and timestamps fall within a column. -/
def InStrictOrder (cells : List Cell) : Prop := cells.Pairwise fun a b => a.storeOrder b = .lt

instance (cells : List Cell) : Decidable (InStrictOrder cells) :=
  inferInstanceAs (Decidable (List.Pairwise _ cells))

theorem storeOrder_eq_lt : a.storeOrder b = .lt ↔
    compare a.column b.column = .lt ∨ a.column = b.column ∧ b.timestamp < a.timestamp := by
  rw [storeOrder, Ordering.then_eq_lt, Std.compare_eq_iff_eq, Std.compare_eq_lt (a := b.timestamp)]

theorem storeOrder_of_key_lt (h : compare a.key b.key = .lt) (ha : a.isTombstone = false) :
    a.storeOrder b = .lt :=
  storeOrder_eq_lt.2 <| (column_le_of_key_lt h).imp id fun hcol => ⟨hcol, newer_of_key_lt h hcol ha⟩

theorem column_isLE_of_storeOrder (h : a.storeOrder b = .lt) :
    (compare a.column b.column).isLE = true := by
  rcases storeOrder_eq_lt.1 h with hlt | ⟨hcol, -⟩
  · simp [hlt]
  · simp [hcol]

theorem InStrictOrder.ordered {cells : List Cell} (h : InStrictOrder cells) : Run.Ordered cells := by
  refine List.Pairwise.imp (fun {a b} hab => ?_) h
  rcases storeOrder_eq_lt.1 hab with hlt | ⟨hcol, hlt⟩
  · exact Key.compare_eq_lt.2 (.inl hlt)
  · exact key_lt_of_newer hcol hlt

theorem InStrictOrder.inStoreOrder {cells : List Cell} (h : InStrictOrder cells) :
    InStoreOrder cells :=
  List.Pairwise.imp (fun hab => by simp [hab]) h

end Cell

namespace CellFilter

variable {φ : Type} [CellFilter φ] {left : Option Column} {f : φ} {c : Cell} {decision : Decision}

/-- The cells that a host takes from a filter, up to the first error. One that heeds hints does not
put the rest of a column to the filter once it has left that column. -/
def scan (heeds : Bool) : (left : Option Column) → φ → List Cell → Except Error (List Cell)
  | _, _, [] => .ok []
  | left, f, c :: cs =>
    if left = some c.column then scan heeds left f cs
    else
      match step f c with
      | (.error e, _) => .error e
      | (.ok d, f) =>
        let rest := scan heeds (if heeds && d == .skipColumn then some c.column else none) f cs
        if d = .accept then rest.map (c :: ·) else rest

theorem scan_left (heeds : Bool) (f : φ) (cs : List Cell) (h : left = some c.column) :
    scan heeds left f (c :: cs) = scan heeds left f cs := by
  rw [scan, if_pos h]

theorem scan_asked (heeds : Bool) (cs : List Cell) (hleft : left ≠ some c.column)
    (h : (step f c).1 = .ok decision) : scan heeds left f (c :: cs) =
      if decision = .accept then (scan heeds none (step f c).2 cs).map (c :: ·)
      else
        scan heeds (if heeds && decision == .skipColumn then some c.column else none)
          (step f c).2 cs := by
  rw [scan, if_neg hleft]
  cases hstep : step f c with
  | mk answer f' =>
    rw [hstep] at h
    cases h
    dsimp only
    split_ifs <;> simp_all

theorem scan_error {e : Error} (heeds : Bool) (cs : List Cell) (hleft : left ≠ some c.column)
    (h : (step f c).1 = .error e) : scan heeds left f (c :: cs) = .error e := by
  rw [scan, if_neg hleft]
  cases hstep : step f c with
  | mk answer f' =>
    rw [hstep] at h
    cases h
    rfl

/-- A host that goes through all cells takes those that are accepted, if every cell is decided on. -/
theorem scan_eq_filter {keeps : Cell → Prop} [DecidablePred keeps] {cells : List Cell}
    (h : ∀ before c after, cells = before ++ c :: after → ∃ decision,
      (step (feed f before).2 c).1 = .ok decision ∧ (decision = .accept ↔ keeps c)) :
    scan false none f cells = .ok (cells.filter keeps) := by
  induction cells generalizing f with
  | nil => rfl
  | cons c cs ih =>
    have hnone : none ≠ some c.column := by simp
    obtain ⟨decision, hok, haccept⟩ :
        ∃ decision, (step f c).1 = .ok decision ∧ (decision = .accept ↔ keeps c) := h [] c cs rfl
    have hcs : scan false none (step f c).2 cs = .ok (cs.filter keeps) :=
      ih fun before d after hsplit => h (c :: before) d after (by rw [hsplit, List.cons_append])
    rw [scan_asked false cs hnone hok]
    simp only [Bool.false_and, Bool.false_eq_true, if_false, hcs]
    by_cases hc : keeps c
    · rw [if_pos (haccept.2 hc), List.filter_cons_of_pos (by simpa using hc)]
      rfl
    · rw [if_neg fun ha => hc (haccept.1 ha), List.filter_cons_of_neg (by simpa using hc)]

/-- A filter that answers like another one is scanned like it. -/
theorem scan_embed {ψ : Type} [CellFilter ψ] {embed : φ → ψ}
    (h : ∀ f c, step (embed f) c = ((step f c).1, embed (step f c).2)) (heeds : Bool)
    (left : Option Column) (f : φ) (cells : List Cell) :
    scan heeds left (embed f) cells = scan heeds left f cells := by
  induction cells generalizing left f with
  | nil => rfl
  | cons c cs ih =>
    by_cases hleft : left = some c.column
    · rw [scan_left heeds _ cs hleft, scan_left heeds f cs hleft, ih]
    · have hstep := congrArg Prod.fst (h f c)
      cases hanswer : (step f c).1 with
      | error e =>
        rw [hanswer] at hstep
        rw [scan_error heeds cs hleft hanswer, scan_error heeds cs hleft hstep]
      | ok decision =>
        rw [hanswer] at hstep
        rw [scan_asked heeds cs hleft hanswer, scan_asked heeds cs hleft hstep, h, ih, ih]

end CellFilter

/-- A sweep that looks at all versions of a run without tombstones is a host that heeds hints. -/
theorem Sweep.run_eq_scan {φ : Type} [CellFilter φ] (applies : Bool) (k : Cursor) (f : φ)
    {cells : List Cell} (hcells : ∀ c ∈ cells, c.isTombstone = false) (hk : k.maskedAt = none) :
    (Sweep.run { appliesTombstones := applies } k f cells).1 =
      CellFilter.scan true (if k.skipping then k.column else none) f cells := by
  induction cells generalizing k f with
  | nil => rfl
  | cons c cs ih =>
    obtain ⟨hc, hcs⟩ := List.forall_mem_cons.1 hcells
    have hleft : (if k.skipping then k.column else none) = some c.column ↔
        (k.enter c).skipping = true := by
      unfold Cursor.enter
      split_ifs <;> simp_all
    have hmask : (k.enter c).maskedAt = none := by
      unfold Cursor.enter
      split_ifs <;> simp [hk]
    have hadmits : Sweep.admits { appliesTombstones := applies } (k.enter c) c =
        !(k.enter c).skipping := by
      simp [admits, Cursor.isMasked, hmask, TimeRange.all_contains, Versions.allows]
    simp only [run, hc, Bool.false_eq_true, if_false, hadmits]
    cases hskip : (k.enter c).skipping with
    | true =>
      have hin : k.enter c = k := by
        unfold Cursor.enter at hskip ⊢
        split_ifs at hskip ⊢
        rfl
      rw [CellFilter.scan_left true f cs (hleft.2 hskip)]
      simpa [hin] using ih k f hcs hk
    | false =>
      have hasked : (if k.skipping then k.column else none) ≠ some c.column := by
        rw [Ne, hleft, hskip]
        decide
      cases hstep : CellFilter.step f c with
      | mk answer f' =>
        cases answer with
        | error e => simp [CellFilter.scan, hasked, hstep]
        | ok decision =>
          have hok : (CellFilter.step f c).1 = .ok decision := congrArg Prod.fst hstep
          rw [CellFilter.scan_asked true cs hasked hok, hstep]
          cases decision with
          | accept =>
            have hrest := congrArg (Except.map (c :: ·)) (ih (k.enter c).take f' hcs hmask)
            simpa [keep, Cursor.take, hskip] using hrest
          | skip => simpa [hskip] using ih (k.enter c) f' hcs hmask
          | skipColumn =>
            simpa [Cursor.skipColumn, Cursor.enter_column] using ih (k.enter c).skipColumn f' hcs hmask

/-! ## The column of a visibility filter -/

namespace Place

variable {v : View} {place : Option (Place v)} {p p' : Place v} {c d : Cell}
  {column column' : Column}

/-- The place is at or before a cell in store order. -/
def UpTo (p : Place v) (c : Cell) : Prop :=
  compare p.column c.column = .lt ∨ p.column = c.column ∧ c.timestamp ≤ p.previous

theorem UpTo.trans (h : p.UpTo c) (hcd : c.storeOrder d = .lt) : p.UpTo d := by
  have hle := Cell.column_isLE_of_storeOrder hcd
  rcases h with hlt | ⟨hcol, hts⟩
  · exact .inl (Std.TransCmp.lt_of_lt_of_isLE hlt hle)
  · rcases Cell.storeOrder_eq_lt.1 hcd with hlt | ⟨hcol', hts'⟩
    · exact .inl (hcol ▸ hlt)
    · exact .inr ⟨hcol.trans hcol', UInt64.le_trans (UInt64.le_of_lt hts') hts⟩

theorem enter_ok (h : ∀ p ∈ place, p.UpTo c) :
    ∃ p, enter place c = .ok p ∧ p.column = c.column ∧ p.previous = c.timestamp := by
  cases place with
  | none => exact ⟨_, rfl, rfl, rfl⟩
  | some p =>
    rcases h p rfl with hlt | ⟨hcol, hle⟩
    · exact ⟨_, enter_of_lt hlt, rfl, rfl⟩
    · simp [enter, hcol, hle]

/-- Once a cell is entered, it is where the filter stands. -/
theorem enter_at (h : enter place c = .ok p) : p.column = c.column ∧ p.previous = c.timestamp := by
  unfold enter at h
  split at h
  · cases h
    exact ⟨rfl, rfl⟩
  · split at h
    · rw [next_eq_first] at h
      cases h
      exact ⟨rfl, rfl⟩
    · rename_i hcol
      split_ifs at h
      cases h
      exact ⟨Std.compare_eq_iff_eq.1 hcol, rfl⟩
    · cases h

theorem column_isLE_of_enter (h : enter (some p) c = .ok p') :
    (compare p.column c.column).isLE = true := by
  cases hcmp : compare p.column c.column with
  | lt => rfl
  | eq => rfl
  | gt => simp [enter, hcmp] at h

theorem enter_same (hcol : p.column = c.column) (h : enter (some p) c = .ok p') :
    p' = { p with previous := c.timestamp } := by
  have hcmp : compare p.column c.column = .eq := Std.compare_eq_iff_eq.2 hcol
  simp only [enter, hcmp] at h
  split_ifs at h
  exact (Except.ok.inj h).symm

theorem find_shadowed_iff :
    p.find c = .shadowed ↔ ∃ m, p.deletedAt = some m ∧ c.timestamp < m := by
  have hdel : p.deletedAt.any (c.timestamp < ·) = true ↔
      ∃ m, p.deletedAt = some m ∧ c.timestamp < m := by
    simp [Option.any_eq_true]
  rw [← hdel]
  unfold find
  cases v.obstacle? p.cutoff c <;> dsimp only <;> split_ifs <;> simp_all

theorem find_newest (h : p.find c = .newest) : c.timestamp = v.reader.id ∨ p.satisfied = false := by
  unfold find at h
  cases ho : v.obstacle? p.cutoff c <;> simp only [ho] at h <;> split_ifs at h
  simp_all

theorem find_older (h : p.find c = .older) : p.satisfied = true := by
  unfold find at h
  cases ho : v.obstacle? p.cutoff c <;> simp only [ho] at h <;> split_ifs at h
  simp_all

/-- The place, unless it is in a column before this one. -/
def since (column : Column) (p : Place v) : Option (Place v) :=
  if compare p.column column = .lt then none else some p

/-- To a cell it does not matter what was in the columns before its own. -/
theorem enter_since (place : Option (Place v)) (c : Cell) :
    enter (place.bind (since c.column)) c = enter place c := by
  cases place with
  | none => rfl
  | some p =>
    by_cases hlt : compare p.column c.column = .lt
    · rw [enter_of_lt hlt, Option.bind_some, since, if_pos hlt]
      rfl
    · simp [since, hlt]

theorem since_since (h : (compare column column').isLE = true) (place : Option (Place v)) :
    (place.bind (since column)).bind (since column') = place.bind (since column') := by
  cases place with
  | none => rfl
  | some p =>
    by_cases hlt : compare p.column column = .lt
    · have hlt' : compare p.column column' = .lt := Std.TransCmp.lt_of_lt_of_isLE hlt h
      simp [since, hlt, hlt']
    · simp [since, hlt]

theorem since_eq_none (h : ∀ p ∈ place, compare p.column column = .lt) :
    place.bind (since column) = none := by
  cases place with
  | none => rfl
  | some p => simp [since, h p rfl]

end Place

namespace Visibility

variable {v : Visibility} {c d : Cell} {column column' : Column} {decision : Decision}

/-- The filter without its place, if that is in a column before this one, and without its counts. -/
def forget (column : Column) (v : Visibility) : Visibility :=
  { v with place := v.place.bind (Place.since column), stats := {} }

theorem forget_forget (h : (compare column column').isLE = true) (v : Visibility) :
    (v.forget column).forget column' = v.forget column' := by
  simp only [forget, Place.since_since h]

/-- A cell is judged by what is known from its column on. -/
theorem step_forget (v : Visibility) (c : Cell) : ((v.forget c.column).step c).1 = (v.step c).1 ∧
    ((v.forget c.column).step c).2.forget c.column = (v.step c).2.forget c.column := by
  have henter : Place.enter (v.forget c.column).place c = Place.enter v.place c :=
    Place.enter_since v.place c
  unfold step
  rw [henter]
  cases Place.enter v.place c with
  | error e => exact ⟨rfl, forget_forget (by simp) v⟩
  | ok p => exact ⟨rfl, rfl⟩

/-- A cell that may come next is decided on, and the filter then stands at it. -/
theorem step_ready (h : ∀ p ∈ v.place, p.UpTo c) :
    (∃ decision, (v.step c).1 = .ok decision) ∧ ∀ p ∈ (v.step c).2.place, p.UpTo c := by
  obtain ⟨p, hp, hcol, hprev⟩ := Place.enter_ok h
  rw [step_of_enter hp]
  refine ⟨⟨_, rfl⟩, ?_⟩
  rintro _ ⟨⟩
  refine .inr ⟨?_, ?_⟩
  · rw [Place.after_column, hcol]
  · rw [Place.after_previous, hprev]
    exact UInt64.le_refl _

/-- In a later column nothing of a cell is known. -/
theorem forget_step (hlt : compare c.column column = .lt) (v : Visibility) :
    (v.step c).2.forget column = v.forget column := by
  cases henter : Place.enter v.place c with
  | error e => rw [step_of_enter_error henter]
  | ok p =>
    have hbefore : v.place.bind (Place.since column) = none := by
      apply Place.since_eq_none
      intro p₀ hp₀
      rw [Option.mem_def.1 hp₀] at henter
      exact Std.TransCmp.lt_of_isLE_of_lt (Place.column_isLE_of_enter henter) hlt
    have hafter : (some (p.after c (p.find c))).bind (Place.since column) = none := by
      apply Place.since_eq_none
      rintro _ ⟨⟩
      rwa [Place.after_column, (Place.enter_at henter).1]
    rw [step_of_enter henter]
    simp only [forget, hbefore, hafter]

/-- The filter accepts nothing that is older than the cell in its column. -/
def Spent (v : Visibility) (c : Cell) : Prop :=
  ∃ p, v.place = some p ∧ p.column = c.column ∧
    ((∃ m, p.deletedAt = some m ∧ c.timestamp ≤ m) ∨
      v.purpose = .userScan ∧ p.satisfied = true ∧ c.timestamp ≤ v.view.reader.id)

theorem spent_of_hint (h : (v.step c).1 = .ok .skipColumn) : (v.step c).2.Spent c := by
  cases henter : Place.enter v.place c with
  | error e => simp [step_of_enter_error henter] at h
  | ok p =>
    simp only [step_of_enter henter, Except.ok.injEq] at h ⊢
    refine ⟨_, rfl, (Place.after_column _ _ _).trans (Place.enter_at henter).1, ?_⟩
    cases hfound : p.find c with
    | shadowed =>
      obtain ⟨m, hm, hlt⟩ := Place.find_shadowed_iff.1 hfound
      exact .inl ⟨m, hm, UInt64.le_of_lt hlt⟩
    | hidden o => simp [decide, hfound] at h
    | marker => exact .inl ⟨c.timestamp, rfl, UInt64.le_refl _⟩
    | newest => simp [decide, hfound] at h
    | older =>
      simp only [decide, hfound] at h
      split_ifs at h with hversions hid
      refine .inr ⟨?_, Place.find_older hfound, UInt64.not_lt.1 hid⟩
      cases hp : v.purpose <;> simp_all [Purpose.retainsVersions]

/-- A filter that is spent stays so for the rest of the column. -/
theorem Spent.step (h : v.Spent c) (hcol : d.column = c.column) (hlt : d.timestamp < c.timestamp)
    (hd : (v.step d).1 = .ok decision) : decision ≠ .accept ∧ (v.step d).2.Spent d := by
  obtain ⟨p, hp, hpcol, hspent⟩ := h
  unfold Visibility.step at hd ⊢
  rw [hp] at hd ⊢
  cases henter : Place.enter (some p) d with
  | error e => simp [henter] at hd
  | ok p' =>
    simp only [henter, Except.ok.injEq] at hd ⊢
    have hp' := Place.enter_same (hpcol.trans hcol.symm) henter
    have hplace (found : Finding) : (p'.after d found).column = d.column := by
      rw [Place.after_column, (Place.enter_at henter).1]
    rcases hspent with ⟨m, hm, hle⟩ | ⟨hpurpose, hsat, hid⟩
    · have hshadow : p'.find d = .shadowed :=
        Place.find_shadowed_iff.2 ⟨m, by rw [hp', hm], UInt64.lt_of_lt_of_le hlt hle⟩
      rw [hshadow] at hd ⊢
      subst hd
      refine ⟨by simp [decide], _, rfl, hplace _, .inl ⟨m, ?_, ?_⟩⟩
      · rw [Place.after, hp', hm]
      · exact UInt64.le_trans (UInt64.le_of_lt hlt) hle
    · have hsat' : p'.satisfied = true := by rw [hp', hsat]
      have hid' : d.timestamp < v.view.reader.id := UInt64.lt_of_lt_of_le hlt hid
      have hrest : v.purpose = .userScan ∧ p'.satisfied = true ∧ d.timestamp ≤ v.view.reader.id :=
        ⟨hpurpose, hsat', UInt64.le_of_lt hid'⟩
      subst hd
      cases hfound : p'.find d with
      | shadowed => exact ⟨by simp [decide], _, rfl, hplace _, .inr hrest⟩
      | hidden o => exact ⟨by simp [decide], _, rfl, hplace _, .inr hrest⟩
      | marker =>
        refine ⟨?_, _, rfl, hplace _, .inl ⟨_, rfl, UInt64.le_refl _⟩⟩
        simp [decide, hpurpose, Purpose.retainsDeleteMarkers]
      | newest =>
        -- The own write of the reader is not older than the cell that spent the column.
        rcases Place.find_newest hfound with hown | hfresh
        · exact absurd (hown ▸ hid') (UInt64.lt_irrefl _)
        · exact absurd (hsat'.symm.trans hfresh) (by decide)
      | older =>
        refine ⟨?_, _, rfl, hplace _, .inr hrest⟩
        simp only [decide, hpurpose, Purpose.retainsVersions]
        split_ifs <;> simp_all

end Visibility

end CellStore
