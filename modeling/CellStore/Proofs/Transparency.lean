import Mathlib.Order.WellFounded
import CellStore.Proofs.Reading
import CellStore.Proofs.Retaining

/-! # Rewrites that readers do not notice

A reader tolerates a snapshot if it is above the settled bound, sees no invalid writer
of the snapshot, and sees every settled valid writer that is newer than one it sees.
For such a reader an effective delete marker hides what is older wherever the marker
ends up, so the versions that a flush or compaction takes away were not shown, and
nothing is shown in their place.
-/
namespace CellStore

/-- Time only adds to what has expired. -/
theorem TtlTable.Expired.later {t : TtlTable} {now now' : TxId} {c : Cell} (h : t.Expired now c)
    (hle : now ≤ now') : t.Expired now' c := by
  obtain ⟨cutoff, hcutoff, hlt⟩ := h
  unfold TtlTable.Expired
  unfold TtlTable.cutoff at hcutoff ⊢
  split at hcutoff
  · cases hcutoff
  · cases hcutoff
    refine ⟨_, rfl, UInt64.lt_of_lt_of_le hlt ?_⟩
    rw [UInt64.le_iff_toNat_le, TxId.saturatingSub_toNat, TxId.saturatingSub_toNat]
    exact Nat.sub_le_sub_right (UInt64.le_iff_toNat_le.1 hle) _

/-- What is older than an expired version of its column has expired. -/
theorem TtlTable.Expired.older {t : TtlTable} {now : TxId} {c d : Cell} (h : t.Expired now d)
    (hcol : d.column = c.column) (hle : c.timestamp ≤ d.timestamp) : t.Expired now c := by
  obtain ⟨cutoff, hcutoff, hlt⟩ := h
  exact ⟨cutoff, hcol ▸ hcutoff, UInt64.lt_of_le_of_lt hle hlt⟩

/-- A reader for whom a snapshot's rewrites change nothing. -/
structure Transaction.Tolerates (t : Transaction) (s : Snapshot) : Prop where
  above : s.upperBound < t.id
  blind : ∀ x ∈ s.invalid, ¬t.Sees x
  upward : ∀ x y, x < y → y ≤ s.upperBound → y ∉ s.invalid → t.Sees x → t.Sees y

namespace View

variable {v : View} {s s' : Store} {c d : Cell}

theorem Passes.congr (h : v.Passes c) (hcol : d.column = c.column)
    (hts : d.timestamp = c.timestamp) :
    v.Passes d := by
  unfold Passes TtlTable.Expired at *
  rwa [hcol, hts]

/-- A passing version that the reader did not write lives. -/
theorem Passes.alive (h : v.Passes c) (hne : c.timestamp ≠ v.reader.id) : ¬v.ttl.Expired v.now c :=
  (h.resolve_left hne).2.2.2

/-- What is shown of one store is shown of another that has it for a candidate, but no newer
candidates than the first one. -/
theorem Shows.of_newer (h : v.Shows s c) (hc : v.Candidate s' c)
    (hnewer : ∀ d, d.column = c.column → c.timestamp < d.timestamp → v.Candidate s' d →
      v.Candidate s d) :
    v.Shows s' c := by
  refine ⟨hc, h.plain, ?_, h.first.imp id ?_⟩
  · rintro ⟨m, hm, hcol, hmark, hlt⟩
    exact h.undeleted ⟨m, hnewer m hcol hlt hm, hcol, hmark, hlt⟩
  · rintro hfirst ⟨d, hd, hcol, hlt⟩
    exact hfirst ⟨d, hnewer d hcol hlt hd, hcol, hlt⟩

/-- Two stores show a reader the same if they have the same candidates, apart from some low
versions of each column that neither shows. -/
theorem Shows.of_agree {low : Cell → Prop}
    (hclosed : ∀ c d, low c → d.column = c.column → d.timestamp ≤ c.timestamp → low d)
    (hagree : ∀ c, ¬low c → (v.Candidate s c ↔ v.Candidate s' c)) (hlow : ∀ c, low c → ¬v.Shows s c)
    (h : v.Shows s c) : v.Shows s' c := by
  have hc : ¬low c := fun hl => hlow c hl h
  refine h.of_newer ((hagree c hc).1 h.candidate) fun d hcol hlt hd => ?_
  exact (hagree d fun hl => hc (hclosed d c hl hcol.symm (UInt64.le_of_lt hlt))).2 hd

end View

theorem Transaction.le_maxVisible {t : Transaction} {x : TxId} (h : x ≤ t.upperBound) :
    x ≤ t.maxVisible := by
  unfold Transaction.maxVisible
  split_ifs
  · exact h
  · change x ≤ if t.id ≤ t.upperBound then t.upperBound else t.id
    split_ifs with hle
    · exact h
    · exact UInt64.le_trans h (UInt64.le_of_lt (UInt64.not_le.1 hle))

/-! ## What a snapshot takes away -/

section

variable {v : View} {snapshot : Snapshot} {now : TxId} {cells : List Cell} {s : Store} {c m : Cell}
variable (ht : v.reader.Tolerates snapshot)
include ht

/-- What passes for the reader is retained, unless an effective marker hides it. -/
theorem Snapshot.retains_of_passes (hnow : now ≤ v.now) (hp : v.Passes c)
    (hh : ¬snapshot.Hides v.ttl now cells c) : snapshot.Retains v.ttl now cells c := by
  have hvalid : c.timestamp ∉ snapshot.invalid := fun hdead => ht.blind _ hdead hp.sees
  by_cases hb : c.timestamp ≤ snapshot.upperBound
  · have hne : c.timestamp ≠ v.reader.id := fun he => UInt64.not_lt.2 (he ▸ hb) ht.above
    exact .inr ⟨hb, hvalid, fun he => hp.alive hne (he.later hnow), hh⟩
  · exact .inl ⟨UInt64.not_le.1 hb, hvalid⟩

/-- An effective marker passes for every reader to whom it matters. -/
theorem Snapshot.Effective.passes (hm : snapshot.Effective v.ttl now m) (hcol : m.column = c.column)
    (hlt : c.timestamp < m.timestamp) (hp : v.Passes c) :
    v.Passes m ∧ c.timestamp ≠ v.reader.id ∧ m.timestamp ≤ v.reader.maxVisible := by
  have hown {x : TxId} (hx : x ≤ snapshot.upperBound) : x ≠ v.reader.id :=
    fun he => UInt64.not_lt.2 (he ▸ hx) ht.above
  have hc := hown (UInt64.le_trans (UInt64.le_of_lt hlt) hm.settled)
  have hsees := ht.upward _ _ hlt hm.settled hm.valid hp.sees
  have halive : ¬v.ttl.Expired v.now m := fun he => hp.alive hc (he.older hcol (UInt64.le_of_lt hlt))
  exact ⟨View.passes_of_sees hsees halive, hc,
    Transaction.le_maxVisible (hsees.resolve_left (hown hm.settled)).2.1⟩

/-- A version hidden by an effective marker is not shown, if the store holds any version at
the place of the marker. -/
theorem Snapshot.Effective.not_shows (hw : s.WellFormed) (hm : snapshot.Effective v.ttl now m)
    (hcol : m.column = c.column) (hlt : c.timestamp < m.timestamp)
    (hheld : ∃ d ∈ s.contents, d.key = m.key) :
    ¬v.Shows s c := by
  intro hshows
  obtain ⟨hmem, hv, hmask, hrange, hp⟩ := (View.candidate_iff hw).1 hshows.candidate
  obtain ⟨hmp, hown, hmax⟩ := hm.passes ht hcol hlt hp
  obtain ⟨d, hd, hkey⟩ := hheld
  simp only [Cell.key, Key.mk.injEq] at hkey
  obtain ⟨hdcol, hdts, hdtomb⟩ := hkey
  have hcand : v.Candidate s d := by
    refine (View.candidate_iff hw).2
      ⟨hd, hdtomb.trans hm.version, ?_, ⟨?_, hdts ▸ hmax⟩, hmp.congr hdcol hdts⟩
    · exact fun hmasked => hmask (hmasked.anti (hdcol.trans hcol).symm (hdts ▸ UInt64.le_of_lt hlt))
    · exact UInt64.le_trans hrange.1 (hdts ▸ UInt64.le_of_lt hlt)
  exact hshows.first.elim hown fun hno => hno ⟨d, hcand, hdcol.trans hcol, hdts ▸ hlt⟩

end

/-- Of the cells of a kind one is the newest. -/
theorem Cell.exists_newest {kind : Cell → Prop} {cells : List Cell} (h : ∃ c ∈ cells, kind c) :
    ∃ m ∈ cells, kind m ∧ ∀ d ∈ cells, kind d → d.timestamp ≤ m.timestamp := by
  obtain ⟨m, ⟨hm, hkind⟩, hmin⟩ :=
    (measure fun m : Cell => UInt64.size - m.timestamp.toNat).wf.has_min {c | c ∈ cells ∧ kind c} h
  refine ⟨m, hm, hkind, fun d hd hdkind => UInt64.not_lt.1 fun hlt => hmin d ⟨hd, hdkind⟩ ?_⟩
  have hsize := d.timestamp.toNat_lt
  have hlt' := UInt64.lt_iff_toNat_lt.1 hlt
  change UInt64.size - d.timestamp.toNat < UInt64.size - m.timestamp.toNat
  simp only [UInt64.size]
  omega

/-- What hides a version is hidden by nothing else, or there is something newer that hides it. -/
theorem Snapshot.Hides.exists_newest {snapshot : Snapshot} {ttl : TtlTable} {now : TxId}
    {cells : List Cell} {c : Cell} (h : snapshot.Hides ttl now cells c) :
    ∃ m ∈ cells, m.column = c.column ∧ snapshot.Effective ttl now m ∧ c.timestamp < m.timestamp ∧
      ¬snapshot.Hides ttl now cells m := by
  obtain ⟨m, hm, ⟨hcol, heff, hlt⟩, hnewest⟩ := Cell.exists_newest h
  refine ⟨m, hm, hcol, heff, hlt, fun ⟨m', hm', hcol', heff', hlt'⟩ => ?_⟩
  have hle := hnewest m' hm' ⟨hcol'.trans hcol, heff', UInt64.lt_trans hlt hlt'⟩
  exact UInt64.not_lt.2 hle hlt'

/-! ## What a store holds after a rewrite -/

/-- What two runs hold together, the first one winning. -/
def Run.Overlay (top bottom : List Cell) (c : Cell) : Prop :=
  c ∈ top ∨ c ∈ bottom ∧ ∀ d ∈ top, d.key ≠ c.key

/-- An overlay keeps the cells of a kind if both of its runs do, whatever else they lose. -/
theorem Run.Overlay.congr {top bottom top' bottom' : List Cell} {kind : Cell → Prop}
    (hkey : ∀ c d, kind c → d.key = c.key → kind d) (htop : ∀ c, kind c → (c ∈ top ↔ c ∈ top'))
    (hbottom : ∀ c, kind c → (c ∈ bottom ↔ c ∈ bottom')) {c : Cell} (hc : kind c) :
    Run.Overlay top bottom c ↔ Run.Overlay top' bottom' c := by
  have hfree : (∀ d ∈ top, d.key ≠ c.key) ↔ ∀ d ∈ top', d.key ≠ c.key :=
    ⟨fun h d hd hk => h d ((htop d (hkey c d hc hk)).2 hd) hk,
      fun h d hd hk => h d ((htop d (hkey c d hc hk)).1 hd) hk⟩
  rw [Run.Overlay, Run.Overlay, htop c hc, hbottom c hc, hfree]

namespace Store

variable {s : Store} {file : List Cell} {c : Cell}

theorem WellFormed.mem_contents_iff_overlay (hw : s.WellFormed) :
    c ∈ s.contents ↔ Run.Overlay s.memstore s.fileContents c :=
  Run.mem_merge_cons hw.memstore s.files.reverse

theorem mem_contents_flushed (hfile : Run.Ordered file) :
    c ∈ (s.replace file .flush).contents ↔ Run.Overlay file s.fileContents c := by
  change c ∈ Run.merge (addFile file s.files).reverse ↔ _
  unfold addFile
  split_ifs with hempty
  · rw [List.isEmpty_iff.1 hempty]
    simp [Run.Overlay, fileContents]
  · rw [List.reverse_append]
    exact Run.mem_merge_cons hfile s.files.reverse

theorem mem_contents_compacted (hw : s.WellFormed) (hfile : Run.Ordered file) (kind : Compaction) :
    c ∈ (s.replace file (.compact kind)).contents ↔ Run.Overlay s.memstore file c := by
  rw [(hw.replace hfile (.compact kind)).mem_contents_iff_overlay]
  have hmem (d : Cell) : d ∈ (s.replace file (.compact kind)).fileContents ↔ d ∈ file := by
    change d ∈ Run.merge (addFile file []).reverse ↔ _
    unfold addFile
    split_ifs with hempty
    · simp [List.isEmpty_iff.1 hempty]
    · exact Run.mem_merge_singleton hfile
  rw [Run.Overlay, hmem]
  rfl

theorem mem_sources_replace (h : c ∈ file) (u : Upkeep) :
    c ∈ (s.replace file u).sources.flatten := by
  rw [mem_sources_iff]
  cases u <;> exact .inr (mem_addFile.2 (.inl h))

end Store

/-! ## What readers are shown after a rewrite -/

section

variable {v : View} {guard : Option Snapshot} {now : TxId} {s : Store} {u : Upkeep}
  {file : List Cell} {c : Cell}
variable (hw : s.WellFormed) (hfile : u.Remains guard v.ttl now (s.part u) file)
variable (hguard : ∀ snapshot, guard = some snapshot → v.reader.Tolerates snapshot)
  (hnow : now ≤ v.now)

/-- The guard of a rewrite hides the version. -/
def Store.Lost (s : Store) (u : Upkeep) (guard : Option Snapshot) (ttl : TtlTable) (now : TxId)
    (c : Cell) : Prop :=
  ∃ snapshot, guard = some snapshot ∧ snapshot.Hides ttl now (s.part u) c

omit hw in
include hfile hguard hnow in
/-- A rewrite that carries tombstones along keeps them, and all that passes and is not lost. -/
theorem Upkeep.Remains.mem_iff_of_carried (hu : u ≠ .compact .major)
    (hc : c.isTombstone = true ∨ v.Passes c ∧ ¬s.Lost u guard v.ttl now c) :
    c ∈ file ↔ c ∈ s.part u := by
  rw [hfile.mem_iff, Upkeep.leaves_iff_of_ne_major hu, and_iff_left]
  refine hc.imp id fun ⟨hp, hlost⟩ snapshot hsome => ?_
  exact Snapshot.retains_of_passes (hguard snapshot hsome) hnow hp fun hh => hlost ⟨snapshot, hsome, hh⟩

include hw hfile hguard hnow

theorem Store.mem_replace_iff_of_carried (hu : u ≠ .compact .major)
    (hc : c.isTombstone = true ∨ v.Passes c ∧ ¬s.Lost u guard v.ttl now c) :
    c ∈ (s.replace file u).contents ↔ c ∈ s.contents := by
  have hkey (c d : Cell) (hc : c.isTombstone = true ∨ v.Passes c ∧ ¬s.Lost u guard v.ttl now c)
      (hk : d.key = c.key) : d.isTombstone = true ∨ v.Passes d ∧ ¬s.Lost u guard v.ttl now d := by
    simp only [Cell.key, Key.mk.injEq] at hk
    obtain ⟨hcol, hts, htomb⟩ := hk
    rcases hc with ht | ⟨hp, hlost⟩
    · exact .inl (htomb.trans ht)
    · refine .inr ⟨hp.congr hcol hts, ?_⟩
      rintro ⟨snapshot, hsome, m, hm, hmcol, heff, hlt⟩
      exact hlost ⟨snapshot, hsome, m, hm, hmcol.trans hcol, heff, hts ▸ hlt⟩
  have hmem (c : Cell) (hc : c.isTombstone = true ∨ v.Passes c ∧ ¬s.Lost u guard v.ttl now c) :=
    hfile.mem_iff_of_carried hguard hnow hu hc
  cases u with
  | flush =>
    rw [Store.mem_contents_flushed hfile.ordered, hw.mem_contents_iff_overlay]
    exact Run.Overlay.congr hkey hmem (fun _ _ => Iff.rfl) hc
  | compact kind =>
    rw [Store.mem_contents_compacted hw hfile.ordered, hw.mem_contents_iff_overlay]
    exact Run.Overlay.congr hkey (fun _ _ => Iff.rfl) hmem hc

theorem View.candidate_replace_iff_of_carried (hu : u ≠ .compact .major)
    (hlost : ¬s.Lost u guard v.ttl now c) : v.Candidate s c ↔ v.Candidate (s.replace file u) c := by
  have hmem {d : Cell} := s.mem_replace_iff_of_carried (c := d) hw hfile hguard hnow hu
  have hmasked : c.Masked (s.replace file u).contents ↔ c.Masked s.contents :=
    exists_congr fun t => and_congr_left fun ⟨_, htomb, _⟩ => hmem (.inl htomb)
  rw [View.candidate_iff hw, View.candidate_iff (hw.replace hfile.ordered u), hmasked]
  constructor
  · rintro ⟨hc, hv, hm, hr, hp⟩
    exact ⟨(hmem (.inr ⟨hp, hlost⟩)).2 hc, hv, hm, hr, hp⟩
  · rintro ⟨hc, hv, hm, hr, hp⟩
    exact ⟨(hmem (.inr ⟨hp, hlost⟩)).1 hc, hv, hm, hr, hp⟩

omit hnow in
/-- What is lost was not shown and is not shown. -/
theorem View.not_shows_lost_of_carried (hu : u ≠ .compact .major)
    (hlost : s.Lost u guard v.ttl now c) :
    ¬v.Shows s c ∧ ¬v.Shows (s.replace file u) c := by
  obtain ⟨snapshot, hsome, hhides⟩ := hlost
  obtain ⟨m, hm, hcol, heff, hlt, hunhidden⟩ := hhides.exists_newest
  have hkept : m ∈ file := by
    refine (hfile.mem_iff m).2 ⟨hm, (Upkeep.leaves_iff_of_ne_major hu).2 (.inr fun s' hs' => ?_)⟩
    cases hsome.symm.trans hs'
    exact .inr ⟨heff.settled, heff.valid, heff.alive, hunhidden⟩
  have ht := hguard snapshot hsome
  have hbefore := Run.exists_mem_merge (Store.mem_sources_of_mem_part hm)
  have hafter := Run.exists_mem_merge (Store.mem_sources_replace (s := s) hkept u)
  exact ⟨heff.not_shows ht hw hcol hlt hbefore,
    heff.not_shows ht (hw.replace hfile.ordered u) hcol hlt hafter⟩

theorem View.shows_replace_iff_of_carried (hu : u ≠ .compact .major) :
    v.Shows (s.replace file u) c ↔ v.Shows s c := by
  have hclosed (c d : Cell) (hl : s.Lost u guard v.ttl now c) (hcol : d.column = c.column)
      (hle : d.timestamp ≤ c.timestamp) : s.Lost u guard v.ttl now d := by
    obtain ⟨snapshot, hsome, m, hm, hmcol, heff, hlt⟩ := hl
    exact ⟨snapshot, hsome, m, hm, hmcol.trans hcol.symm, heff, UInt64.lt_of_le_of_lt hle hlt⟩
  have hagree (c : Cell) (hl : ¬s.Lost u guard v.ttl now c) :=
    View.candidate_replace_iff_of_carried hw hfile hguard hnow hu hl
  have hlost (c : Cell) (hl : s.Lost u guard v.ttl now c) :=
    View.not_shows_lost_of_carried hw hfile hguard hu hl
  exact ⟨.of_agree hclosed (fun c hl => (hagree c hl).symm) fun c hl => (hlost c hl).2,
    .of_agree hclosed hagree fun c hl => (hlost c hl).1⟩

end

section

variable {v : View} {guard : Option Snapshot} {now : TxId} {s : Store} {file : List Cell} {c : Cell}
variable (hw : s.WellFormed)
  (hfile : (Upkeep.compact .major).Remains guard v.ttl now s.fileContents file)
variable (hguard : ∀ snapshot, guard = some snapshot → v.reader.Tolerates snapshot)
  (hnow : now ≤ v.now)
variable (hempty : s.memstore = [])

/-- The guard of a major compaction has an effective marker at the version or hiding it. -/
def Store.Cleared (s : Store) (guard : Option Snapshot) (ttl : TtlTable) (now : TxId) (c : Cell) :
    Prop :=
  ∃ snapshot, guard = some snapshot ∧ ∃ m ∈ s.fileContents, m.column = c.column ∧
    snapshot.Effective ttl now m ∧ c.timestamp ≤ m.timestamp

include hw hempty

omit hw in
theorem Store.contents_of_empty : s.contents = s.fileContents := by
  rw [Store.contents, hempty]
  rfl

include hfile

theorem Store.mem_replace_major : c ∈ (s.replace file (.compact .major)).contents ↔ c ∈ file := by
  rw [Store.mem_contents_compacted hw hfile.ordered, hempty]
  simp [Run.Overlay]

/-- A major compaction leaves no version that is cleared, and nothing that masks. -/
theorem View.candidate_replace_major_iff : v.Candidate (s.replace file (.compact .major)) c ↔
    v.Candidate s c ∧ ∀ snapshot, guard = some snapshot →
      snapshot.Retains v.ttl now s.fileContents c ∧ ¬snapshot.Effective v.ttl now c := by
  have hmem {d : Cell} := Store.mem_replace_major (c := d) hw hfile hempty
  have hleaves := (hfile.mem_iff c).trans (and_congr_right fun _ => Iff.rfl)
  have hunmasked : ¬c.Masked (s.replace file (.compact .major)).contents := by
    rintro ⟨t, ht, -, htomb, -⟩
    have hversion := ((hfile.mem_iff t).1 (hmem.1 ht)).2.1
    rw [hversion] at htomb
    cases htomb
  rw [View.candidate_iff hw, View.candidate_iff (hw.replace hfile.ordered _), hmem, hleaves,
    Store.contents_of_empty hempty]
  constructor
  · rintro ⟨⟨hc, hv, hm, hsnap⟩, -, -, hr, hp⟩
    exact ⟨⟨hc, hv, hm, hr, hp⟩, hsnap⟩
  · rintro ⟨⟨hc, hv, hm, hr, hp⟩, hsnap⟩
    exact ⟨⟨hc, hv, hm, hsnap⟩, hv, hunmasked, hr, hp⟩

include hguard

theorem View.not_shows_cleared (hcleared : s.Cleared guard v.ttl now c) :
    ¬v.Shows s c ∧ ¬v.Shows (s.replace file (.compact .major)) c := by
  obtain ⟨snapshot, hsome, m, hm, hcol, heff, hle⟩ := hcleared
  have ht := hguard snapshot hsome
  have hcontents := Store.contents_of_empty hempty
  rcases UInt64.lt_or_eq_of_le hle with hlt | heq
  · have hbefore : ∃ d ∈ s.contents, d.key = m.key := ⟨m, hcontents ▸ hm, rfl⟩
    refine ⟨heff.not_shows ht hw hcol hlt hbefore, fun hshows => ?_⟩
    have hleft := (View.candidate_replace_major_iff hw hfile hempty).1 hshows.candidate
    have hretains := (hleft.2 _ hsome).1
    rcases hretains with ⟨hb, -⟩ | ⟨-, -, -, hhides⟩
    · exact UInt64.not_lt.2 (UInt64.le_trans hle heff.settled) hb
    · exact hhides ⟨m, hm, hcol, heff, hlt⟩
  · -- A version at the place of the marker is the marker itself.
    have hself (hc : v.Candidate s c) : c = m := by
      obtain ⟨hmem, hv, -⟩ := (View.candidate_iff hw).1 hc
      have hmem' : c ∈ s.fileContents := hcontents ▸ hmem
      refine (Run.ordered_merge _).eq_of_key_eq hmem' hm ?_
      rw [Cell.key, Cell.key, hcol, heq, hv, heff.version]
    constructor
    · intro hshows
      have hplain := hshows.plain
      rw [hself hshows.candidate, heff.marker] at hplain
      cases hplain
    · intro hshows
      obtain ⟨hc, hsnap⟩ := (View.candidate_replace_major_iff hw hfile hempty).1 hshows.candidate
      exact (hsnap snapshot hsome).2 (hself hc ▸ heff)

include hnow

theorem View.shows_replace_iff_of_major :
    v.Shows (s.replace file (.compact .major)) c ↔ v.Shows s c := by
  have hclosed (c d : Cell) (hl : s.Cleared guard v.ttl now c) (hcol : d.column = c.column)
      (hle : d.timestamp ≤ c.timestamp) : s.Cleared guard v.ttl now d := by
    obtain ⟨snapshot, hsome, m, hm, hmcol, heff, hmle⟩ := hl
    exact ⟨snapshot, hsome, m, hm, hmcol.trans hcol.symm, heff, UInt64.le_trans hle hmle⟩
  have hagree (c : Cell) (hl : ¬s.Cleared guard v.ttl now c) :
      v.Candidate s c ↔ v.Candidate (s.replace file (.compact .major)) c := by
    rw [View.candidate_replace_major_iff hw hfile hempty, and_iff_left_of_imp]
    intro hc snapshot hsome
    have hmem : c ∈ s.fileContents :=
      Store.contents_of_empty hempty ▸ ((View.candidate_iff hw).1 hc).1
    refine ⟨Snapshot.retains_of_passes (hguard snapshot hsome) hnow hc.passes ?_, fun heff => ?_⟩
    · rintro ⟨m, hm, hcol, heff, hlt⟩
      exact hl ⟨snapshot, hsome, m, hm, hcol, heff, UInt64.le_of_lt hlt⟩
    · exact hl ⟨snapshot, hsome, c, hmem, rfl, heff, UInt64.le_refl _⟩
  have hcleared (c : Cell) (hl : s.Cleared guard v.ttl now c) :=
    View.not_shows_cleared hw hfile hguard hempty hl
  exact ⟨.of_agree hclosed (fun c hl => (hagree c hl).symm) fun c hl => (hcleared c hl).2,
    .of_agree hclosed hagree fun c hl => (hcleared c hl).1⟩

end

/-- A flush, a minor compaction, or a major compaction without a memstore changes nothing
that a reader is shown who tolerates its guard. -/
theorem View.shows_replace_iff {v : View} {guard : Option Snapshot} {now : TxId} {s : Store}
    {u : Upkeep} {file : List Cell} (hw : s.WellFormed)
    (hfile : u.Remains guard v.ttl now (s.part u) file)
    (hguard : ∀ snapshot, guard = some snapshot → v.reader.Tolerates snapshot)
    (hnow : now ≤ v.now) (hmajor : u = .compact .major → s.memstore = []) (c : Cell) :
    v.Shows (s.replace file u) c ↔ v.Shows s c := by
  by_cases hu : u = .compact .major
  · subst hu
    exact View.shows_replace_iff_of_major hw hfile hguard hnow (hmajor rfl)
  · exact View.shows_replace_iff_of_carried hw hfile hguard hnow hu

end CellStore
