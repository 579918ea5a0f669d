import CellStore.Retention

/-! # Store scans

A flush or compaction that a snapshot guards: the upkeep it serves and the
filter that judges its cells. Every version is looked at.
-/
namespace CellStore

structure StoreScan where
  upkeep : Upkeep
  filter : Retention Visibility

namespace StoreScan

instance : CellFilter StoreScan where
  step s c := ((s.filter.step c).1, { s with filter := (s.filter.step c).2 })

/-- What is reported at the end of the scan. -/
def summary (s : StoreScan) : ScanSummary where
  action := s.upkeep.name
  purpose := s.upkeep.purpose.name
  boundary := s.filter.gate.boundary
  included := s.filter.inner.stats.included
  skipped := s.filter.inner.stats.skipped
  invalid := s.filter.inner.stats.invalid
  expired := s.filter.inner.stats.expired
  purged := s.filter.inner.stats.purgeEligible
  shadowed := s.filter.inner.stats.shadowed
  retainedUnsettled := s.filter.gate.retainedUnsettled
  droppedInvalid := s.filter.gate.droppedInvalid

end StoreScan

end CellStore
