import SiteFusion.Proofs.Frames
import SiteFusion.Proofs.RoundInduction
import SiteFusion.Proofs.SiteRecovery

namespace SiteFusion

open List Option

namespace Function

variable {f : Function} {x : String × UInt64}

theorem mem_switches : x ∈ f.graph.blockList.filterMap Site.dispatch? ↔ ∃ k, f.Ends k x := by
  rw [mem_filterMap]
  constructor
  · rintro ⟨b, hb, hx⟩
    obtain ⟨k, hk⟩ := Table.mem_values_iff.mp hb
    exact ⟨k, b, hk, hx⟩
  · rintro ⟨k, b, hb, hx⟩
    exact ⟨b, Table.mem_values_iff.mpr ⟨k, hb⟩, hx⟩

end Function

namespace Rounds

variable {s : Rounds} {keep : Site}

theorem siteLe_total (a b : Site) : siteLe a b || siteLe b a := by
  simp only [siteLe, Bool.or_eq_true, Bool.and_eq_true, decide_eq_true_eq]
  by_cases hab : a.callee < b.callee
  · exact .inl (.inl hab)
  · by_cases hba : b.callee < a.callee
    · exact .inr (.inl hba)
    · have h : a.callee = b.callee := String.le_antisymm (String.not_lt.mp hba) (String.not_lt.mp hab)
      rcases UInt64.le_total a.ordinal b.ordinal with h' | h'
      · exact .inl (.inr ⟨h, h'⟩)
      · exact .inr (.inr ⟨h.symm, h'⟩)

theorem siteLe_trans (a b c : Site) (hab : siteLe a b) (hbc : siteLe b c) : siteLe a c := by
  simp only [siteLe, Bool.or_eq_true, Bool.and_eq_true, decide_eq_true_eq] at hab hbc ⊢
  rcases hab with hab | ⟨hab, hab'⟩
  · rcases hbc with hbc | ⟨hbc, -⟩
    · exact .inl (String.lt_trans hab hbc)
    · exact .inl (hbc ▸ hab)
  · rcases hbc with hbc | ⟨hbc, hbc'⟩
    · exact .inl (hab ▸ hbc)
    · exact .inr ⟨hab.trans hbc, UInt64.le_trans hab' hbc'⟩

/-- If there is no pair to merge, a site with a lower one of the same callee is left alone. -/
theorem mem_skipped_of_duplicatePair? {sites : List Site} {skipped : List (String × UInt64)}
    (h : duplicatePair? (sites.mergeSort siteLe) skipped = none) {a b : Site} (ha : a ∈ sites)
    (hb : b ∈ sites) (hc : a.callee = b.callee) (hlt : a.ordinal < b.ordinal) :
    (b.callee, b.ordinal) ∈ skipped := by
  have hsorted := pairwise_mergeSort siteLe_trans siteLe_total sites
  obtain ⟨keep, hkeep⟩ : ∃ keep, (sites.mergeSort siteLe).find?
      (fun s => s.callee = b.callee) = some keep :=
    isSome_iff_exists.mp (find?_isSome.mpr ⟨b, mem_mergeSort.mpr hb, decide_eq_true rfl⟩)
  have hle : keep.ordinal ≤ a.ordinal := by
    obtain ⟨hp, as, bs, hsplit, hbefore⟩ := find?_eq_some_iff_append.mp hkeep
    have hmem : a ∈ sites.mergeSort siteLe := mem_mergeSort.mpr ha
    rw [hsplit] at hmem hsorted
    rcases mem_append.mp hmem with ha' | ha'
    · have hno := hbefore a ha'
      simp [hc] at hno
    · rcases mem_cons.mp ha' with rfl | ha'
      · exact UInt64.le_refl _
      · have hle := (pairwise_cons.mp (pairwise_append.mp hsorted).2.1).1 a ha'
        simp only [siteLe, Bool.or_eq_true, Bool.and_eq_true, decide_eq_true_eq] at hle hp
        rcases hle with hless | ⟨-, hle⟩
        · exact absurd hless (hp.trans hc.symm ▸ String.lt_irrefl _)
        · exact hle
  have hnone := findSome?_eq_none_iff.mp h b (mem_mergeSort.mpr hb)
  split at hnone
  · next hskip => exact contains_iff_mem.mp hskip
  · rw [hkeep] at hnone
    dsimp only at hnone
    rw [if_pos (UInt64.lt_of_le_of_lt hle hlt)] at hnone
    cases hnone

end Rounds

end SiteFusion
