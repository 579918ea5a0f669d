import CellStore.Proofs.Maintenance
import CellStore.Proofs.PlainReads

/-! # What a major compaction purges

A major compaction goes through the files and applies their tombstones and effective delete
markers for good. It purges what they hide among the files, together with versions of dead
writers and expired ones. What it leaves was there before, so as far as the files go a read
through the eyes of a transaction gets nothing that it did not get before, nor does a plain
read that sees all versions. The memstore is not gone through: what only tombstones and
markers of the files hide there has lost them, and is back.
-/
namespace CellStore

theorem Cell.masked_append {a b : List Cell} {c : Cell} :
    c.Masked (a ++ b) ↔ c.Masked a ∨ c.Masked b := by
  simp [Cell.Masked, or_and_right, exists_or]

theorem Layering.Keeps.offers {φ : Type} [CellFilter φ] {L : Layering φ} {s : Sweep} {view : View}
    {purpose : Purpose} {cells : List Cell} {c : Cell} (h : L.Keeps s view purpose cells c)
    (happ : s.appliesTombstones = true) : s.Offers cells c := by
  rcases h with ⟨hcarried, -⟩ | ⟨hoffers, -⟩
  · simp [happ] at hcarried
  · exact hoffers

namespace Store

variable {s : Store} {file : List Cell} {c : Cell}

/-- A file from which a major compaction has taken the tombstones of the files and what they mask. -/
structure Applied (s : Store) (file : List Cell) : Prop where
  ordered : Run.Ordered file
  stored : ∀ c ∈ file, c ∈ s.fileContents
  version : ∀ c ∈ file, c.isTombstone = false
  unmasked : ∀ c ∈ file, ¬c.Masked s.fileContents

theorem applied_of_remains {guard : Option Snapshot} {ttl : TtlTable} {now : TxId}
    (hfile : (Upkeep.compact .major).Remains guard ttl now s.fileContents file) : s.Applied file where
  ordered := hfile.ordered
  stored c hc := ((hfile.mem_iff c).1 hc).1
  version c hc := ((hfile.mem_iff c).1 hc).2.1
  unmasked c hc := ((hfile.mem_iff c).1 hc).2.2.1

theorem applied_of_condense {guard : Option Snapshot} {ttl : TtlTable} {now : TxId}
    {scan : Option StoreScan}
    (hcond : condense (.compact .major)
      (guard.map fun s => ⟨.compact .major, .ofSnapshot s ttl .dropDeletes now⟩) s.fileContents =
        (.ok file, scan)) : s.Applied file := by
  obtain ⟨file', scan', hcond', hord, hfile⟩ :=
    condense_guarded guard ttl now (.compact .major) (Run.ordered_merge s.files.reverse)
  have hsame : file' = file := by
    cases hcond'.symm.trans hcond
    rfl
  rw [hsame] at hord hfile
  have hoffers (c : Cell) (hc : c ∈ file) := ((hfile c).1 hc).2.offers rfl
  exact ⟨hord, fun c hc => (hoffers c hc).1, fun c hc => (hoffers c hc).2.1,
    fun c hc => (hoffers c hc).2.2.1 rfl⟩

theorem masked_contents_iff : c.Masked s.contents ↔ c.Masked s.memstore ∨ c.Masked s.fileContents := by
  have hall : c.Masked s.contents ↔ c.Masked (s.memstore ++ s.files.reverse.flatten) :=
    Run.masked_merge_iff s.sources
  rw [hall, Cell.masked_append, fileContents, Run.masked_merge_iff]

/-- After a major compaction only the tombstones of the memstore are left. -/
theorem Applied.masked_iff (hfile : s.Applied file) :
    c.Masked (s.replace file (.compact .major)).contents ↔ c.Masked s.memstore := by
  have hnone : ¬c.Masked (s.replace file (.compact .major)).fileContents := by
    rintro ⟨t, ht, -, htomb, -⟩
    have hnew : t ∈ (s.replace file (.compact .major)).files.flatten := by
      simpa only [List.mem_flatten, List.mem_reverse] using Run.mem_of_mem_merge ht
    rw [replace, mem_addFile] at hnew
    rcases hnew with hnew | hnew
    · simp [hfile.version t hnew] at htomb
    · cases hnew
  rw [masked_contents_iff, or_iff_left hnone]
  rfl

theorem Applied.stored_before (hfile : s.Applied file) (hw : s.WellFormed)
    (hc : c ∈ (s.replace file (.compact .major)).contents) : c ∈ s.contents := by
  rw [mem_contents_compacted hw hfile.ordered] at hc
  rw [hw.mem_contents_iff_overlay]
  exact hc.imp id (And.imp_left (hfile.stored c))

/-- A version of the memstore that no tombstone masks but those of the files. -/
structure Exposed (s : Store) (c : Cell) : Prop where
  stored : c ∈ s.memstore
  version : c.isTombstone = false
  unmasked : ¬c.Masked s.memstore
  masked : c.Masked s.fileContents

theorem Exposed.not_live (h : s.Exposed c) : ¬s.Live c :=
  fun hlive => hlive.unmasked (masked_contents_iff.2 (.inr h.masked))

/-- What is live after a major compaction was live before, or the files masked it in the memstore. -/
theorem Live.before_major (hlive : (s.replace file (.compact .major)).Live c) (hw : s.WellFormed)
    (hfile : s.Applied file) : s.Live c ∨ s.Exposed c := by
  have hstored := hfile.stored_before hw hlive.stored
  have hfree : ¬c.Masked s.memstore := fun hm => hlive.unmasked (hfile.masked_iff.2 hm)
  by_cases hm : c.Masked s.fileContents
  · refine .inr ⟨?_, hlive.version, hfree, hm⟩
    rcases (mem_contents_compacted hw hfile.ordered .major).1 hlive.stored with hc | ⟨hc, -⟩
    · exact hc
    · exact absurd hm (hfile.unmasked c hc)
  · refine .inl ⟨hstored, hlive.version, fun hmasked => ?_⟩
    exact (masked_contents_iff.1 hmasked).elim hfree hm

/-- Of what is live after a major compaction, just what the files masked in the memstore was not
live before. -/
theorem Live.exposed_iff (hlive : (s.replace file (.compact .major)).Live c) (hw : s.WellFormed)
    (hfile : s.Applied file) : ¬s.Live c ↔ s.Exposed c :=
  ⟨(hlive.before_major hw hfile).resolve_left, Exposed.not_live⟩

/-- Without a guard a major compaction purges no live version. -/
theorem live_major_iff (hw : s.WellFormed) {ttl : TtlTable} {now : TxId}
    (hfile : (Upkeep.compact .major).Remains none ttl now s.fileContents file) :
    (s.replace file (.compact .major)).Live c ↔ s.Live c ∨ s.Exposed c := by
  have happlied : s.Applied file := applied_of_remains hfile
  constructor
  · exact fun hlive => hlive.before_major hw happlied
  · intro h
    suffices hkept : (c ∈ s.memstore ∨ c ∈ file ∧ ∀ d ∈ s.memstore, d.key ≠ c.key) ∧
        c.isTombstone = false ∧ ¬c.Masked s.memstore by
      refine ⟨(mem_contents_compacted hw hfile.ordered .major).2 hkept.1, hkept.2.1, ?_⟩
      rw [happlied.masked_iff]
      exact hkept.2.2
    rcases h with ⟨hstored, hversion, hunmasked⟩ | hexposed
    · rw [masked_contents_iff, not_or] at hunmasked
      refine ⟨(hw.mem_contents_iff_overlay.1 hstored).imp id (And.imp_left fun hc => ?_), hversion,
        hunmasked.1⟩
      exact (hfile.mem_iff c).2 ⟨hc, hversion, hunmasked.2, fun _ h => by cases h⟩
    · exact ⟨.inl hexposed.stored, hexposed.version, hexposed.unmasked⟩

end Store

/-! ## What a transaction is shown -/

section

variable {v : View} {guard : Option Snapshot} {now : TxId} {s : Store} {file : List Cell} {c d : Cell}

variable (hw : s.WellFormed)
  (hfile : (Upkeep.compact .major).Remains guard v.ttl now s.fileContents file)
include hfile

theorem Upkeep.Remains.not_lost (hc : c ∈ file) : ¬s.Lost (.compact .major) guard v.ttl now c := by
  rintro ⟨snapshot, hsome, hhides⟩
  have hretains := (((hfile.mem_iff c).1 hc).2.2.2 snapshot hsome).1
  rcases hretains with ⟨habove, -⟩ | ⟨-, -, -, hunhidden⟩
  · obtain ⟨m, -, -, heff, hlt⟩ := hhides
    exact UInt64.lt_asymm habove (UInt64.lt_of_lt_of_le hlt heff.settled)
  · exact hunhidden hhides

include hw

/-- A candidate that nothing effective in the files hides is one afterwards, unless it is in
the files and effective itself. -/
theorem View.Candidate.after_major (hcand : v.Candidate s c)
    (hguard : ∀ snapshot, guard = some snapshot → v.reader.Tolerates snapshot) (hnow : now ≤ v.now)
    (hlost : ¬s.Lost (.compact .major) guard v.ttl now c)
    (heff : c ∈ s.fileContents → ∀ snapshot, guard = some snapshot →
      ¬snapshot.Effective v.ttl now c) :
    v.Candidate (s.replace file (.compact .major)) c := by
  obtain ⟨hc, hversion, hunmasked, hrange, hp⟩ := (candidate_iff hw).1 hcand
  refine (candidate_iff (hw.replace hfile.ordered _)).2 ⟨?_, hversion, ?_, hrange, hp⟩
  · rw [hw.mem_contents_iff_overlay] at hc
    rw [Store.mem_contents_compacted hw hfile.ordered]
    refine hc.imp id (And.imp_left fun hc => (hfile.mem_iff c).2 ⟨hc, hversion, ?_, ?_⟩)
    · exact fun hm => hunmasked (Store.masked_contents_iff.2 (.inr hm))
    · intro snapshot hsome
      refine ⟨Snapshot.retains_of_passes (hguard snapshot hsome) hnow hp ?_, heff hc snapshot hsome⟩
      exact fun hhides => hlost ⟨snapshot, hsome, hhides⟩
  · rw [(Store.applied_of_remains hfile).masked_iff]
    exact fun hm => hunmasked (Store.masked_contents_iff.2 (.inl hm))

/-- What a tolerant reader is shown after a major compaction, it was shown before, unless it is
in the memstore and the files masked or hid it. -/
theorem View.Shows.before_major (h : v.Shows (s.replace file (.compact .major)) c)
    (hguard : ∀ snapshot, guard = some snapshot → v.reader.Tolerates snapshot) (hnow : now ≤ v.now) :
    v.Shows s c ∨ c ∈ s.memstore ∧
      (c.Masked s.fileContents ∨ s.Lost (.compact .major) guard v.ttl now c) := by
  obtain ⟨hmem, hversion, hunmasked, hrange, hp⟩ :=
    (candidate_iff (hw.replace hfile.ordered _)).1 h.candidate
  by_cases hbad : c.Masked s.fileContents ∨ s.Lost (.compact .major) guard v.ttl now c
  · refine .inr ⟨?_, hbad⟩
    rcases (Store.mem_contents_compacted hw hfile.ordered .major).1 hmem with hc | ⟨hc, -⟩
    · exact hc
    · exact (hbad.elim ((Store.applied_of_remains hfile).unmasked c hc) (hfile.not_lost hc)).elim
  · obtain ⟨hfree, hlost⟩ := not_or.1 hbad
    have hlive : s.Live c :=
      (Store.Live.before_major ⟨hmem, hversion, hunmasked⟩ hw
        (Store.applied_of_remains hfile)).resolve_right
        fun hm => hfree hm.masked
    refine .inl (h.of_newer ((candidate_iff hw).2
      ⟨hlive.stored, hlive.version, hlive.unmasked, hrange, hp⟩) fun d hcol hlt hd => ?_)
    -- Whatever hides a newer candidate, or hides others itself, hides the version too.
    refine hd.after_major hw hfile hguard hnow ?_ ?_
    · rintro ⟨snapshot, hsome, m, hm, hmcol, heff, hmlt⟩
      exact hlost ⟨snapshot, hsome, m, hm, hmcol.trans hcol, heff, UInt64.lt_trans hlt hmlt⟩
    · exact fun hd snapshot hsome heff => hlost ⟨snapshot, hsome, d, hd, hcol, heff, hlt⟩

/-- Of what a tolerant reader is shown after a major compaction, it was not shown just what is in
the memstore and the files masked or hid. -/
theorem View.Shows.new_major_iff (h : v.Shows (s.replace file (.compact .major)) c)
    (hguard : ∀ snapshot, guard = some snapshot → v.reader.Tolerates snapshot) (hnow : now ≤ v.now) :
    ¬v.Shows s c ↔ c ∈ s.memstore ∧
      (c.Masked s.fileContents ∨ s.Lost (.compact .major) guard v.ttl now c) := by
  constructor
  · exact (h.before_major hw hfile hguard hnow).resolve_left
  · rintro ⟨-, hmasked | ⟨snapshot, hsome, m, hm, hcol, heff, hlt⟩⟩ hbefore
    · have hunmasked := ((candidate_iff hw).1 hbefore.candidate).2.2.1
      exact hunmasked (Store.masked_contents_iff.2 (.inr hmasked))
    · -- The place of the marker is held, by the marker or by a newer copy in the memstore.
      have hheld := Run.exists_mem_merge (Store.mem_sources_of_mem_part (u := .compact .major) hm)
      exact heff.not_shows (hguard snapshot hsome) hw hcol hlt hheld hbefore

end

/-- A reader tolerates the snapshot that it starts from. -/
theorem Transaction.tolerates_own {id : TxId} {s : Snapshot} (hid : s.upperBound < id)
    (hvalid : id ∉ s.invalid) : (Transaction.start id s).Tolerates s where
  above := hid
  blind x hx hsees := by
    rcases hsees with rfl | ⟨-, -, hnot⟩
    · exact hvalid hx
    · exact hnot hx
  upward x y hlt hle hnot _ := by
    have h0 : y ≠ 0 := by
      rintro rfl
      exact UInt64.not_lt_zero hlt
    refine .inr ⟨fun hrunning => ?_, UInt64.le_trans hle s.upperBound_le_readPointer, hnot⟩
    exact UInt64.not_lt.2 hle (Snapshot.upperBound_lt_of_mem hrunning h0)

namespace Host

variable {σ : Type} {h : Host σ} {ctx : Context Unit} {s : Store} {r : Read}
  {caller : Option (Cell → Bool)} {millis : Int}

/-- Of what the second of two reads that succeed gives, the first one does not give just the cells
of a kind. -/
def Gains (first second : Except Error (List Cell)) (kind : Cell → Prop) : Prop :=
  ∃ before after, first = .ok before ∧ second = .ok after ∧ ∀ c ∈ after, c ∉ before ↔ kind c

theorem Plain.setClock (hp : h.Plain r) (millis : Int) : Plain { h with clock := millis } r :=
  hp.imp id fun ⟨⟨ctx, hrun⟩, hattr⟩ => ⟨⟨ctx, hrun.setClock millis⟩, hattr⟩

variable [SnapshotSource σ]

theorem upkeep_observed (h : Host σ) (u : Upkeep) : (h.upkeep u).state.observed = h.observed := by
  obtain ⟨processor, hstate⟩ := h.ask_state none (·.openScan h.now (fun _ => h.latest) u)
  rw [upkeep_eq, onStore]
  cases h.store with
  | none => rfl
  | some s =>
    dsimp only
    split_ifs
    · rfl
    · unfold Outcome.andThen
      split
      · rw [openScan, hstate]
      · rw [openScan, hstate]
        rfl

theorem Plain.upkeep (hp : h.Plain r) (u : Upkeep) : (h.upkeep u).state.Plain r := by
  rcases hp with hunobserved | ⟨⟨ctx, hrun⟩, hattr⟩
  · exact .inl ((h.upkeep_observed u).trans hunobserved)
  · exact .inr ⟨⟨ctx, (hrun.upkeep u).1⟩, hattr⟩

/-- Without a processor nothing guards a flush or compaction. -/
theorem upkeep_unguarded (hobserved : h.observed = false) (hs : h.store = some s)
    (hw : s.WellFormed) (u : Upkeep) :
    ∃ file, (h.upkeep u).result = .ok () ∧ (h.upkeep u).state.store = some (s.replace file u) ∧
      u.Remains none {} h.now (s.part u) file := by
  by_cases hidle : s.isIdle u = true
  · obtain ⟨hpart, hreplace⟩ := Store.part_of_isIdle hidle
    refine ⟨[], ?_⟩
    rw [upkeep_idle hs hidle, hpart, hreplace]
    exact ⟨rfl, hs, .nil, by simp⟩
  have hopen : (h.openScan u).result = .ok none := by simp [openScan, ask, hobserved]
  have hunreserved : Store.Unreserved none (s.part u) := by simp [Store.Unreserved]
  obtain ⟨file, scan, hcond, hremains⟩ :=
    Store.condense_leaves {} h.now u (hw.part u) hunreserved
  obtain ⟨hresult, hstore⟩ := upkeep_tends hs hidle hopen hcond
  exact ⟨file, hresult, hstore, hremains⟩

/-- Whatever guards it, a major compaction that succeeds takes away the tombstones of the files and
what they mask. -/
theorem compact_major_applied (hr : h.Reachable) (hs : h.store = some s)
    (hdone : (h.upkeep (.compact .major)).result = .ok ()) :
    ∃ file, (h.upkeep (.compact .major)).state.store = some (s.replace file (.compact .major)) ∧
      s.Applied file := by
  rcases upkeep_cases hs (hr.wellFormed hs) (.compact .major) with
    ⟨e, hrefused, -⟩ | ⟨guard, ttl, file, scan, hcond, -, hstore⟩
  · rw [hrefused] at hdone
    cases hdone
  · exact ⟨file, hstore, Store.applied_of_condense hcond⟩

/-- A plain read after a major compaction gives nothing that it would not have given before
with no limit on the versions, but for what the files masked in the memstore. -/
theorem Plain.compact_major_read (hr : h.Reachable) (hp : h.Plain r) (hs : h.store = some s)
    (hdone : (h.upkeep (.compact .major)).result = .ok ()) (hf : r.filter = caller.map .predicate)
    (millis : Int) :
    ∃ all, (read { h with clock := millis } { r with versions := .all }).result = .ok all ∧
      Gains (read { h with clock := millis } r).result
        (read { (h.upkeep (.compact .major)).state with clock := millis } r).result
        fun c => s.Exposed c ∨ r.versions.allows (c.newerIn all) = false := by
  obtain ⟨file, hs', hfile⟩ := compact_major_applied hr hs hdone
  have hpall : h.Plain { r with versions := .all } := hp
  obtain ⟨before, all, hbefore, hall, -, hlimited, hmem⟩ := s.read_newest_live hf
  obtain ⟨after, all', hafter, -, -, hlimited', hmem'⟩ :=
    (s.replace file (.compact .major)).read_newest_live hf
  refine ⟨all, ((hpall.setClock millis).read_result hs).trans hall, before, after,
    ((hp.setClock millis).read_result hs).trans hbefore,
    (((hp.upkeep (.compact .major)).setClock millis).read_result hs').trans hafter, fun c hc => ?_⟩
  obtain ⟨hcov, hwanted, hrange, hlive⟩ := (hmem' c).1 ((hlimited' c).1 hc).1
  have hgained : c ∉ all ↔ s.Exposed c := by
    rw [hmem, and_iff_right hcov, and_iff_right hwanted, and_iff_right hrange]
    exact hlive.exposed_iff (hr.wellFormed hs) hfile
  rw [hlimited, not_and_or, hgained, Bool.not_eq_true]

section

variable (hr : h.Reachable) (hobserved : h.observed = false) (hs : h.store = some s)
include hr hobserved hs

/-- Without a processor a plain read after a major compaction gives nothing that it did not give
before, but for what the files masked in the memstore. -/
theorem compact_major_read_unguarded (hf : r.filter = caller.map .predicate) (millis : Int) :
    Gains (read { h with clock := millis } r).result
      (read { (h.upkeep (.compact .major)).state with clock := millis } r).result s.Exposed := by
  have hw := hr.wellFormed hs
  obtain ⟨file, hdone, hs', hfile⟩ := upkeep_unguarded hobserved hs hw (.compact .major)
  have hp : h.Plain r := .inl hobserved
  obtain ⟨before, all, hbefore, -, hord, hlimited, hmem⟩ := s.read_newest_live hf
  obtain ⟨after, all', hafter, -, -, hlimited', hmem'⟩ :=
    (s.replace file (.compact .major)).read_newest_live hf
  refine ⟨before, after, ((hp.setClock millis).read_result hs).trans hbefore,
    (((hp.upkeep (.compact .major)).setClock millis).read_result hs').trans hafter, fun c hc => ?_⟩
  obtain ⟨hcall, hallows⟩ := (hlimited' c).1 hc
  obtain ⟨hcov, hwanted, hrange, hlive⟩ := (hmem' c).1 hcall
  -- No version that was live is gone, so a version has no fewer newer ones than before.
  have hsub : all ⊆ all' := fun d hd => by
    obtain ⟨hcov, hwanted, hrange, hlive⟩ := (hmem d).1 hd
    exact (hmem' d).2 ⟨hcov, hwanted, hrange, (Store.live_major_iff hw hfile).2 (.inl hlive)⟩
  have hallowed := Versions.allows_of_le hallows (Cell.newerIn_le (c := c) hord.nodup hsub)
  rw [hlimited, and_iff_left hallowed, hmem, and_iff_right hcov, and_iff_right hwanted,
    and_iff_right hrange]
  exact hlive.exposed_iff hw (Store.applied_of_remains hfile)

/-- Without a processor reads are the same after a major compaction, whatever their filter, as
long as the files masked nothing in the memstore. -/
theorem compact_major_same_iff (millis : Int) :
    (∀ r, (read { (h.upkeep (.compact .major)).state with clock := millis } r).result =
        (read { h with clock := millis } r).result) ↔ ∀ c, ¬s.Exposed c := by
  have hw := hr.wellFormed hs
  obtain ⟨file, hdone, hs', hfile⟩ := upkeep_unguarded hobserved hs hw (.compact .major)
  have hp (r : Read) : h.Plain r := .inl hobserved
  have hbefore (r : Read) : (read { h with clock := millis } r).result = (s.read r.plan).1 :=
    ((hp r).setClock millis).read_result hs
  have hafter (r : Read) : (read { (h.upkeep (.compact .major)).state with clock := millis } r).result =
      ((s.replace file (.compact .major)).read r.plan).1 :=
    (((hp r).upkeep (.compact .major)).setClock millis).read_result hs'
  simp only [hbefore, hafter]
  have hlive (c : Cell) := Store.live_major_iff (c := c) hw hfile
  constructor
  · intro hsame c hexposed
    have hf : Read.filter { rows := .one c.column.row, versions := .all } =
        (none : Option (Cell → Bool)).map .predicate := rfl
    obtain ⟨before, hread, -, hmem⟩ := s.read_live hf rfl
    obtain ⟨after, hread', -, hmem'⟩ := (s.replace file (.compact .major)).read_live hf rfl
    cases hread'.symm.trans ((hsame _).trans hread)
    have hcov : Read.covers (.one c.column.row) [] c = true := Read.covers_iff.2 ⟨rfl, .inl rfl⟩
    have hc : c ∈ before :=
      (hmem' c).2 ⟨hcov, rfl, TimeRange.all_contains _, (hlive c).2 (.inr hexposed)⟩
    exact hexposed.not_live ((hmem c).1 hc).2.2.2
  · intro hnone r
    rw [Store.read_congr fun c => (hlive c).trans (or_iff_left (hnone c))]

end

/-- A read by a transaction that started from the guard of a major compaction gives nothing
afterwards that it did not give before, but for what the files masked or hid in the memstore. -/
theorem Running.compact_major_read (hr : h.Reachable) (hrun : h.Running ctx) (hs : h.store = some s)
    {snapshot : Snapshot} (hlatest : h.latest = some snapshot) {id : TxId}
    (hid : snapshot.upperBound < id) (hvalid : id ∉ snapshot.invalid)
    (hf : r.filter = caller.map .predicate)
    (ht : r.attributes.transaction? h.processor.codec = .ok (some (.start id snapshot)))
    (hnow : h.now ≤ Tick.ofClock millis) :
    Gains (read { h with clock := millis } r).result
      (read { (h.upkeep (.compact .major)).state with clock := millis } r).result
      fun c => c ∈ s.memstore ∧
        (c.Masked s.fileContents ∨ snapshot.Hides ctx.ttl h.now s.fileContents c) := by
  have hw := hr.wellFormed hs
  have htolerates : (Transaction.start id snapshot).Tolerates snapshot :=
    Transaction.tolerates_own hid hvalid
  have hguard (other : Snapshot) (hother : some snapshot = some other) :
      (Transaction.start id snapshot).Tolerates other := by
    cases hother
    exact htolerates
  have hunreserved : Store.Unreserved h.latest (s.part (.compact .major)) := by
    rw [hlatest]
    exact Store.unreserved_of_lt fun other hother => (hguard other hother).above
  rcases hrun.upkeep_leaves hs hw (.compact .major) hunreserved with ⟨hcold, -⟩ | ⟨file, -, hs', hfile⟩
  · rw [hlatest] at hcold
    cases hcold
  rw [hlatest] at hfile
  obtain ⟨hrun', hcodec⟩ := hrun.upkeep (.compact .major)
  obtain ⟨before, hbefore, -, hmem⟩ :=
    (hrun.setClock millis).read_shows (hr.setClock millis) hs hf ht
  obtain ⟨after, hafter, -, hmem'⟩ := (hrun'.setClock millis).read_shows
    ((hr.upkeep (.compact .major)).setClock millis) hs' hf (hcodec ▸ ht)
  refine ⟨before, after, hbefore, hafter, fun c hc => ?_⟩
  obtain ⟨hcov, hwanted, hshows⟩ := (hmem' c).1 hc
  have hlost : s.Lost (.compact .major) (some snapshot) ctx.ttl h.now c ↔
      snapshot.Hides ctx.ttl h.now s.fileContents c := by
    simp only [Store.Lost, Option.some.injEq, exists_eq_left']
    rfl
  rw [hmem, and_iff_right hcov, and_iff_right hwanted]
  exact (hshows.new_major_iff hw hfile hguard hnow).trans
    (and_congr_right fun _ => or_congr Iff.rfl hlost)

/-- What a major compaction brings back is what it does not go through: the versions of the memstore
that only tombstones of the files mask and, for a transaction that started from its guard, those
that an effective marker of the files hides. Without a processor all reads are the same if
there are no such versions. In a running region a plain read with a limit on the versions of a
column also goes on to older ones in place of those purged. -/
theorem compact_major_brings_back_iff (hr : h.Reachable) (hs : h.store = some s)
    (hdone : (h.compact .major).result = .ok ()) (hnow : h.now ≤ Tick.ofClock millis) :
    (h.observed = false →
      ((∀ r, (read { (h.compact .major).state with clock := millis } r).result =
          (read { h with clock := millis } r).result) ↔ ∀ c, ¬s.Exposed c) ∧
      ∀ {r : Read} {caller : Option (Cell → Bool)}, r.filter = caller.map .predicate →
        Gains (read { h with clock := millis } r).result
          (read { (h.compact .major).state with clock := millis } r).result s.Exposed) ∧
    ∀ {ctx : Context Unit} {r : Read} {caller : Option (Cell → Bool)}, h.Running ctx →
      r.filter = caller.map .predicate →
      (r.attributes.get? Attributes.transactionKey = none →
        ∃ all, (read { h with clock := millis } { r with versions := .all }).result = .ok all ∧
          Gains (read { h with clock := millis } r).result
            (read { (h.compact .major).state with clock := millis } r).result
            fun c => s.Exposed c ∨ r.versions.allows (c.newerIn all) = false) ∧
      ∀ {snapshot : Snapshot} {id : TxId}, h.latest = some snapshot → snapshot.upperBound < id →
        id ∉ snapshot.invalid →
        r.attributes.transaction? h.processor.codec = .ok (some (.start id snapshot)) →
        Gains (read { h with clock := millis } r).result
          (read { (h.compact .major).state with clock := millis } r).result
          fun c => c ∈ s.memstore ∧
            (c.Masked s.fileContents ∨ snapshot.Hides ctx.ttl h.now s.fileContents c) := by
  constructor
  · intro hobserved
    refine ⟨compact_major_same_iff hr hobserved hs millis, fun hf => ?_⟩
    exact compact_major_read_unguarded hr hobserved hs hf millis
  · intro ctx r caller hrun hf
    refine ⟨fun hattr => ?_, fun hlatest hid hvalid ht => ?_⟩
    · exact Plain.compact_major_read hr (.inr ⟨⟨ctx, hrun⟩, hattr⟩) hs hdone hf millis
    · exact hrun.compact_major_read hr hs hlatest hid hvalid hf ht hnow

/-! ### Regions in which a major compaction brings something back -/

def versionAt (timestamp : TxId) : Cell := ⟨⟨[1], [2], [3]⟩, timestamp, [7], []⟩

/-- A region that holds a version in the memstore and a tombstone above it in a file. -/
def belowTombstone (observed : Bool) : Host SnapshotCache :=
  run (opening
      { table := ⟨"t", []⟩, observed, processor := { codec := .messagePack }, source := {} }).state
    [.delete ⟨[1], [2], [3]⟩ 20, .flush, .put { row := [1], cells := [versionAt 10] },
      .publish (.clean 60 [])]

/-- A region that holds a version in the memstore and a delete marker above it in a file. -/
def belowMarker : Host SnapshotCache :=
  (blank .messagePack).run [.put (Put.asDelete { row := [1], cells := [versionAt 20] }), .flush,
    .put { row := [1], cells := [versionAt 10] }, .publish (.clean 60 [])]

/-- A snapshot in which the writer 50 is dead. -/
def lateDeath : Snapshot := ⟨60, .ofList [50], .empty, 0, fun _ _ => List.not_mem_nil⟩

/-- A region whose file holds two versions, the newer one from a dead writer. -/
def deadOnTop : Host SnapshotCache :=
  (blank .messagePack).run
    [.put { row := [1], cells := [versionAt 50, versionAt 30] }, .flush, .publish lateDeath]

theorem belowTombstone_reachable (observed : Bool) : (belowTombstone observed).Reachable :=
  (Reachable.opened ⟨rfl, rfl, rfl⟩).run _

theorem compact_major_brings_back_iff_below :
    (¬∀ r, (read { ((belowTombstone false).compact .major).state with clock := 3 } r).result =
        (read { belowTombstone false with clock := 3 } r).result) ∧
      (∃ all, (read { deadOnTop with clock := 3 } { rows := .all, versions := .all }).result = .ok all ∧
        Gains (read { deadOnTop with clock := 3 } { rows := .all }).result
          (read { (deadOnTop.compact .major).state with clock := 3 } { rows := .all }).result fun c =>
            Store.Exposed ⟨[], [[versionAt 50, versionAt 30]]⟩ c ∨
              Versions.allows (.atMost 1) (c.newerIn all) = false) ∧
      Gains
        (read { belowMarker with clock := 3 } (.allFor .messagePack (.start 70 (.clean 60 [])))).result
        (read { (belowMarker.compact .major).state with clock := 3 }
          (.allFor .messagePack (.start 70 (.clean 60 [])))).result fun c =>
          c ∈ [versionAt 10] ∧ (c.Masked [(versionAt 20).asDeleteMarker] ∨
            (Snapshot.clean 60 []).Hides {} belowMarker.now [(versionAt 20).asDeleteMarker] c) := by
  have hs : (belowTombstone false).store =
      some ⟨[versionAt 10], [[⟨⟨[1], [2], [3]⟩, 20, [], [Tag.tombstone]⟩]]⟩ := rfl
  have hexposed : Store.Exposed ⟨[versionAt 10], [[⟨⟨[1], [2], [3]⟩, 20, [], [Tag.tombstone]⟩]]⟩
      (versionAt 10) :=
    ⟨List.mem_singleton_self _, rfl, by simp [Cell.Masked, versionAt, Cell.isTombstone],
      ⟨_, List.mem_singleton_self _, rfl, rfl, by decide⟩⟩
  have hdead : deadOnTop.Running ⟨deadOnTop.region, {}, ()⟩ := ⟨rfl, .inr rfl, rfl⟩
  have hmarker : belowMarker.Running ⟨belowMarker.region, {}, ()⟩ := ⟨rfl, .inr rfl, rfl⟩
  have hnow : belowMarker.now ≤ Tick.ofClock 3 := by decide
  have hplain : Read.filter { rows := .all } = (none : Option (Cell → Bool)).map .predicate := rfl
  have htransaction : (Read.allFor .messagePack (.start 70 (.clean 60 []))).filter =
      (none : Option (Cell → Bool)).map .predicate := rfl
  refine ⟨fun hsame => ?_, ?_, ?_⟩
  · exact ((compact_major_brings_back_iff (belowTombstone_reachable false) hs rfl
      (by decide)).1 rfl).1.1 hsame _ hexposed
  · exact ((compact_major_brings_back_iff ((blank_reachable _).run _) rfl rfl
      (by decide)).2 hdead hplain).1 rfl
  · exact ((compact_major_brings_back_iff ((blank_reachable _).run _) rfl rfl
      hnow).2 hmarker htransaction).2 rfl (by decide) (by decide) (Read.allFor_transaction rfl)

/-- A filter with a memory, which takes the first cell that it is given and no other. -/
def firstOnly : Filter := .custom (fun seen _ => .ok (if seen.isEmpty then .accept else .skip)) []

/-- What the same read gives before and after a major compaction. -/
structure Changes (h : Host σ) (r : Read) (before after : List Cell) : Prop where
  reachable : h.Reachable
  running : h.observed = true → ∃ ctx, h.Running ctx
  done : (h.compact .major).result = .ok ()
  before : (h.read r).result = .ok before
  after : ((h.compact .major).state.read r).result = .ok after

/-- What tombstones or markers of the files hid in the memstore is back once they are gone. And in
a running region a plain read of the newest versions gets an older one in place of the one that
is purged, as does a filter that counts what it is given. -/
theorem compact_major_brings_back :
    (∀ observed, (belowTombstone observed).Changes { rows := .all, versions := .all } []
        [versionAt 10]) ∧
      belowMarker.Changes (.allFor .messagePack (.start 70 (.clean 60 []))) [] [versionAt 10] ∧
      deadOnTop.Changes { rows := .all } [versionAt 50] [versionAt 30] ∧
      deadOnTop.Changes { rows := .all, versions := .all, filter := some firstOnly } [versionAt 50]
        [versionAt 30] ∧
      deadOnTop.Changes
        { Read.allFor .messagePack (.start 70 lateDeath) with filter := some firstOnly } []
        [versionAt 30] := by
  have hrun (h : Host SnapshotCache) (hactive : h.processor.stage = .active)
      (hctx : h.processor.context = some ⟨"t,0", {}, ()⟩) (hobserved : h.observed = true) :
      ∃ ctx, h.Running ctx :=
    ⟨_, hobserved, .inr hactive, hctx⟩
  refine ⟨fun observed => ?_, ?_, ?_, ?_, ?_⟩
  · cases observed with
    | false => exact ⟨belowTombstone_reachable false, Bool.noConfusion, rfl, rfl, rfl⟩
    | true => exact ⟨belowTombstone_reachable true, hrun _ rfl rfl, rfl, rfl, rfl⟩
  · exact ⟨(blank_reachable _).run _, hrun _ rfl rfl, rfl, rfl, rfl⟩
  · exact ⟨(blank_reachable _).run _, hrun _ rfl rfl, rfl, rfl, rfl⟩
  · exact ⟨(blank_reachable _).run _, hrun _ rfl rfl, rfl, rfl, rfl⟩
  · exact ⟨(blank_reachable _).run _, hrun _ rfl rfl, rfl, rfl, rfl⟩

end Host

end CellStore
