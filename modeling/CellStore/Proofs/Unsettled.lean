import CellStore.Proofs.Histories
import CellStore.Proofs.PlainReads

/-! # Unsettled writes

A write is unsettled as long as it lies above the bound of the latest snapshot. Bounds never
fall, so it was unsettled under every earlier snapshot too, and no flush or compaction that
they guarded could take it away. Of its key the store then holds at all times what was
written there last, and a plain read shows just this.
-/
namespace CellStore

namespace Store

variable {s : Store} {k : Key} {written cells file : List Cell} {u : Upkeep} {c : Cell}

/-- A store that holds nothing but what was written, and at a key what was written there last. -/
structure Reflects (s : Store) (written : List Cell) (k : Key) : Prop where
  logged : ∀ c ∈ s.sources.flatten, c ∈ written
  last : Run.lookup k s.contents = Run.lookup k written.reverse

theorem WellFormed.mem_of_mem_write (hw : s.WellFormed) (hc : c ∈ (s.write cells).sources.flatten) :
    c ∈ s.sources.flatten ∨ c ∈ cells := by
  rw [mem_sources_iff] at hc ⊢
  rcases hc with hc | hc
  · have hlookup : Run.lookup c.key (s.write cells).memstore =
        (Run.lookup c.key cells.reverse).or (Run.lookup c.key s.memstore) :=
      Run.lookup_foldl_insert hw.memstore c.key cells
    rw [(Run.lookup_eq_some_iff (hw.write cells).memstore).2 ⟨hc, rfl⟩] at hlookup
    rcases Option.or_eq_some_iff.1 hlookup.symm with hnew | ⟨-, hold⟩
    · exact .inr (List.mem_reverse.1 (List.mem_of_find?_eq_some hnew))
    · exact .inl (.inl (List.mem_of_find?_eq_some hold))
  · exact .inl (.inr hc)

theorem mem_of_mem_replace (hsub : ∀ d ∈ file, d ∈ s.part u)
    (hc : c ∈ (s.replace file u).sources.flatten) : c ∈ s.sources.flatten := by
  have hnew (hc : c ∈ file) : c ∈ s.sources.flatten := mem_sources_of_mem_part (hsub c hc)
  rw [mem_sources_iff] at hc
  cases u with
  | flush =>
    rw [replace, mem_addFile] at hc
    rcases hc with hc | hc | hc
    · cases hc
    · exact hnew hc
    · exact mem_sources_iff.2 (.inr hc)
  | compact kind =>
    rw [replace, mem_addFile] at hc
    rcases hc with hc | hc | hc
    · exact mem_sources_iff.2 (.inl hc)
    · exact hnew hc
    · cases hc

theorem Reflects.write (h : s.Reflects written k) (hw : s.WellFormed) (cells : List Cell) :
    (s.write cells).Reflects (written ++ cells) k where
  logged c hc := by
    rw [List.mem_append]
    exact (hw.mem_of_mem_write hc).imp_left (h.logged c)
  last := by rw [hw.lookup_write, h.last, List.reverse_append, Run.lookup_append]

theorem Reflects.replace (h : s.Reflects written k) (hw : s.WellFormed) (hfile : Run.Ordered file)
    (hsub : ∀ d ∈ file, d ∈ s.part u) (hkept : ∀ d ∈ s.part u, d.key = k → d ∈ file) :
    (s.replace file u).Reflects written k where
  logged c hc := h.logged c (mem_of_mem_replace hsub hc)
  last := by
    rw [hw.lookup_replace hfile fun c hk => ⟨hsub c, fun hc => hkept c hc hk⟩, h.last]

/-- What was written last at a place that no tombstone masks is live. -/
theorem Reflects.live {d last : Cell} (h : s.Reflects written d.key) (hversion : d.isTombstone = false)
    (hunmasked : ¬d.Masked written) (hlast : Run.lookup d.key written.reverse = some last) :
    s.Live last ∧ last.column = d.column ∧ last.timestamp = d.timestamp := by
  rw [← h.last, Run.lookup_eq_some_iff s.ordered_contents] at hlast
  obtain ⟨hmem, hkey⟩ := hlast
  simp only [Cell.key, Key.mk.injEq] at hkey
  obtain ⟨hcol, htime, htomb⟩ := hkey
  refine ⟨⟨hmem, htomb.trans hversion, ?_⟩, hcol, htime⟩
  rintro ⟨t, ht, htcol, hrest⟩
  exact hunmasked ⟨t, h.logged t (Run.mem_of_mem_merge ht), htcol.trans hcol, htime ▸ hrest⟩

end Store

/-- Under no snapshot is a valid version above its bound taken away, unless by a tombstone. -/
theorem Upkeep.leaves_unsettled {guard : Option Snapshot} {ttl : TtlTable} {now : TxId}
    {cells : List Cell} {c : Cell} (u : Upkeep)
    (hguard : ∀ s, guard = some s → s.upperBound < c.timestamp ∧ c.timestamp ∉ s.invalid)
    (hversion : c.isTombstone = false) (hunmasked : ¬c.Masked cells) :
    u.Leaves guard ttl now cells c := by
  have hretains (s : Snapshot) (hs : guard = some s) : s.Retains ttl now cells c := .inl (hguard s hs)
  rcases u with - | - | -
  · exact .inr hretains
  · exact .inr hretains
  · refine ⟨hversion, hunmasked, fun s hs => ⟨hretains s hs, fun heff => ?_⟩⟩
    exact UInt64.not_lt.2 heff.settled (hguard s hs).1

namespace Host

variable {σ : Type} [SnapshotSource σ] {h : Host σ} {ctx : Context Unit} {ops : List Operation}
  {c d : Cell} {next : Operation}

/-- A write that is unsettled at the end of some operations: it lies above the bound of the
latest snapshot, its writer is invalid in none that was installed, and no tombstone at or
above it was written to its column. -/
structure Unsettled (h : Host σ) (ops : List Operation) (d : Cell) : Prop where
  version : d.isTombstone = false
  above : ∀ s, (h.run ops).latest = some s → s.upperBound < d.timestamp
  valid : ∀ s, h.latest = some s ∨ h.Installs ops s → d.timestamp ∉ s.invalid
  unmasked : ¬d.Masked (log ops)

/-- What is unsettled now was unsettled one operation before. -/
theorem Unsettled.before [LawfulSource σ] (hr : h.Reachable) (hrun : h.Running ctx)
    (hops : ∀ op ∈ ops ++ [next], op.GoesOn) (hd : h.Unsettled (ops ++ [next]) d) :
    h.Unsettled ops d where
  version := hd.version
  above s hs := by
    obtain ⟨latest, hlatest, hle⟩ := hrun.latest_snoc hr hops hs
    exact UInt64.lt_of_le_of_lt hle (hd.above latest hlatest)
  valid s hs := hd.valid s (hs.imp id fun hi => hi.append [next])
  unmasked := by
    rintro ⟨t, ht, hrest⟩
    exact hd.unmasked ⟨t, by simp [log_snoc, ht], hrest⟩

/-- Of the key of an unsettled write, the store of a running region holds what was written last. -/
theorem Unsettled.reflects [LawfulSource σ] (hr : h.Reachable) (hrun : h.Running ctx)
    (hs : h.store = some {})
    (hops : ∀ op ∈ ops, op.GoesOn) (hd : h.Unsettled ops d) :
    ∃ s, (h.run ops).store = some s ∧ s.Reflects (log ops) d.key := by
  induction ops using List.reverseRecOn with
  | nil => exact ⟨{}, hs, by simp [Store.sources], rfl⟩
  | append_singleton ops next ih =>
    have hgoes : ∀ op ∈ ops, op.GoesOn := fun op hop => hops op (by simp [hop])
    have hbefore := hd.before hr hrun hops
    obtain ⟨s, hs', hreflects⟩ := ih hgoes hbefore
    have hrun' := hrun.run hr hgoes
    have hw := (hr.run ops).wellFormed hs'
    rw [run_snoc, log_snoc]
    rcases hrun'.apply_cases hs' (hops next (by simp)) with
      ⟨processor, source, clock, hstate, -⟩ | ⟨u, hstate, hwrites⟩
    · exact ⟨_, by rw [hstate], hreflects.write hw next.writes⟩
    · rw [hstate, hwrites, List.append_nil]
      have hguard (snapshot : Snapshot) (hlatest : (h.run ops).latest = some snapshot) :
          snapshot.upperBound < d.timestamp ∧ d.timestamp ∉ snapshot.invalid :=
        ⟨hbefore.above snapshot hlatest, hbefore.valid snapshot (hrun.latest_installed hr hgoes hlatest)⟩
      have hunreserved : Store.Unreserved (h.run ops).latest (s.part u) :=
        Store.unreserved_of_lt fun snapshot hlatest => (hguard snapshot hlatest).1
      rcases hrun'.upkeep_leaves hs' hw u hunreserved with ⟨-, -, -, hstore⟩ | ⟨file, -, hstore, hfile⟩
      · exact ⟨s, hstore, hreflects⟩
      · have hsub (c : Cell) (hc : c ∈ file) : c ∈ s.part u := ((hfile.mem_iff c).1 hc).1
        refine ⟨_, hstore, hreflects.replace hw hfile.ordered hsub fun c hc hkey => ?_⟩
        simp only [Cell.key, Key.mk.injEq] at hkey
        obtain ⟨hcol, htime, htomb⟩ := hkey
        refine (hfile.mem_iff c).2 ⟨hc, u.leaves_unsettled ?_ (htomb.trans hd.version) ?_⟩
        · rwa [htime]
        · rintro ⟨t, ht, htcol, hrest⟩
          have hlogged := hreflects.logged t (Store.mem_sources_of_mem_part ht)
          exact hbefore.unmasked ⟨t, hlogged, htcol.trans hcol, htime ▸ hrest⟩

/-- No unsettled write is lost. Whatever a region with a processor goes through, in any order,
without being stopped or closed: of the key of every write that is unsettled in the end, a
plain read of all versions shows one version, the one that was written last. -/
theorem unsettled_writes_stay [LawfulSource σ] (hfresh : h.Fresh) (hobserved : h.observed = true)
    (hops : ∀ op ∈ ops, op.GoesOn) (hd : d ∈ log ops) (hunsettled : h.opening.state.Unsettled ops d) :
    ∃ out last,
      ((h.opening.state.run ops).read { rows := .one d.column.row, versions := .all }).result = .ok out ∧
        Run.lookup d.key (log ops).reverse = some last ∧
        out.filter (fun c => c.column = d.column ∧ c.timestamp = d.timestamp) = [last] := by
  have hr : h.opening.state.Reachable := .opened hfresh
  obtain ⟨ctx, hrun⟩ := hfresh.running hobserved
  have hempty : h.opening.state.store = some {} := (opening_store h).trans hfresh.store
  obtain ⟨s, hs, hreflects⟩ := hunsettled.reflects hr hrun hempty hops
  obtain ⟨last, hlast⟩ : ∃ last, Run.lookup d.key (log ops).reverse = some last := by
    apply Option.isSome_iff_exists.1
    rw [Run.lookup, List.find?_isSome]
    exact ⟨d, by simpa using hd, by simp⟩
  obtain ⟨hlive, hcol, htime⟩ := hreflects.live hunsettled.version hunsettled.unmasked hlast
  obtain ⟨out, hread, hplace⟩ := s.read_place hlive
  rw [hcol] at hread hplace
  rw [htime] at hplace
  have hplain : (h.opening.state.run ops).Plain { rows := .one d.column.row, versions := .all } :=
    .inr ⟨⟨ctx, hrun.run hr hops⟩, rfl⟩
  exact ⟨out, last, (hplain.read_result hs).trans hread, hlast, hplace⟩

/-- A version that is written twice, before and after a flush, and whose writer is not settled. -/
def rewriting : List Operation :=
  [.put { row := [1], cells := [⟨⟨[1], [2], [3]⟩, 10, [7], []⟩] }, .flush, .publish (.clean 5 [8]),
    .put { row := [1], cells := [⟨⟨[1], [2], [3]⟩, 10, [8], []⟩] }, .compact .major, .flush]

theorem unsettled_writes_stay_rewriting :
    ∃ out last,
      (((blank .messagePack).run rewriting).read { rows := .one [1], versions := .all }).result = .ok out ∧
      Run.lookup ⟨⟨[1], [2], [3]⟩, 10, false⟩ (log rewriting).reverse = some last ∧
        out.filter (fun c => c.column = ⟨[1], [2], [3]⟩ ∧ c.timestamp = 10) = [last] := by
  refine unsettled_writes_stay (σ := SnapshotCache)
    (h := { table := ⟨"t", []⟩, processor := { codec := .messagePack }, source := {} })
    (d := ⟨⟨[1], [2], [3]⟩, 10, [7], []⟩) ⟨rfl, rfl, rfl⟩ rfl ?_ (by decide) ⟨rfl, ?_, ?_, ?_⟩
  · simp [rewriting, Operation.GoesOn]
  · rintro s hs
    cases hs
    decide
  · rintro s (hs | ⟨done, rest, hops, -⟩)
    · cases hs
    · have hs : Operation.publish s ∈ rewriting := by simp [hops]
      simp only [rewriting, List.mem_cons, reduceCtorEq, Operation.publish.injEq, List.not_mem_nil,
        false_or, or_false] at hs
      subst hs
      decide
  · have hversions : ∀ c ∈ log rewriting, c.isTombstone = false := by decide
    rintro ⟨t, ht, -, htomb, -⟩
    simp [hversions t ht] at htomb

end Host

end CellStore
