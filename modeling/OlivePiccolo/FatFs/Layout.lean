import Mathlib.Algebra.Order.Group.Nat
import OlivePiccolo.FatFs.File

/-!
# Where a file is

The sectors of a cluster are in the data area, in a row, and those of different clusters are
different. Sector `k` of a file is at `place l k` if `l` is the chain of its clusters.
-/

namespace OlivePiccolo.FatFs

/-- The sizes are powers of two. -/
structure Geometry.Sized (g : Geometry) : Prop where
  csize : ∃ k ≤ 7, g.csize = 2 ^ k
  ssize : ∃ k ≤ 12, g.ssize = 2 ^ k

/-- The first sector of a cluster. -/
def Geometry.sectorOf (g : Geometry) (c : ℕ) : ℕ := (c - 2) * g.csize + g.database

/-- The sector is in the cluster. -/
def Geometry.InClust (g : Geometry) (c s : ℕ) : Prop :=
  g.sectorOf c ≤ s ∧ s < g.sectorOf c + g.csize

/-- A sector of a file with these clusters. -/
def Geometry.place (g : Geometry) (l : List ℕ) (k : ℕ) : ℕ :=
  g.sectorOf ((l[k / g.csize]?).getD 0) + k % g.csize

/-- The bytes in a cluster. -/
def Geometry.bcs (g : Geometry) : ℕ := g.csize * g.ssize

section Layout

variable {g : Geometry} {c c' s k k' j p : ℕ} {l l' : List ℕ}

theorem csect_eq (hs : g.Sized) (p : ℕ) : g.csect p = p / g.ssize % g.csize := by
  obtain ⟨n, -, hn⟩ := hs.csize
  rw [Geometry.csect, hn, Nat.and_two_pow_sub_one_eq_mod]

/-- The position of the first byte of a cluster. -/
theorem mask_eq (hs : g.Sized) {n : ℕ} (hn : n < 2 ^ 32) :
    n &&& ((2 ^ 32 - 1) ^^^ (g.csize * g.ssize - 1)) = n / g.bcs * g.bcs := by
  obtain ⟨a, ha, hcsize⟩ := hs.csize
  obtain ⟨b, hb, hssize⟩ := hs.ssize
  have hbcs : g.bcs = 2 ^ (a + b) := by rw [Geometry.bcs, hcsize, hssize, Nat.pow_add]
  rw [show g.csize * g.ssize = g.bcs from rfl, hbcs]
  apply Nat.eq_of_testBit_eq
  intro i
  rw [Nat.testBit_and, Nat.testBit_xor, Nat.testBit_two_pow_sub_one, Nat.testBit_two_pow_sub_one,
    Nat.testBit_mul_two_pow, Nat.testBit_div_two_pow]
  by_cases hi : i < 32
  · by_cases hlow : i < a + b
    · simp [hi, hlow, Nat.not_le.mpr hlow]
    · simp [hi, hlow, Nat.not_lt.mp hlow]
  · have hbig : n < 2 ^ i := Nat.lt_of_lt_of_le hn (Nat.pow_le_pow_right (by decide) (by omega))
    have hge : a + b ≤ i := by omega
    simp [Nat.testBit_lt_two_pow hbig, hge]

theorem database_pos (hg : g.WellFormed) : 0 < g.database := by
  have hmounted := hg.mounted
  have hfat := hg.fat_le
  have hone := Nat.le_mul_of_pos_left g.fsize hg.nFats_pos
  have hn := hg.nFatent
  have hfsize : 0 < g.fsize := by
    by_contra hzero
    have hzero' : g.fsize = 0 := Nat.eq_zero_of_not_pos hzero
    cases htype : g.fsType with
    | none => exact hmounted htype
    | fat12 =>
      have hsize := (hg.fat12 htype).2
      rw [hzero', Nat.zero_mul, Nat.zero_mul] at hsize
      omega
    | fat16 =>
      have hsize := (hg.fat16 htype).2
      rw [hzero', Nat.zero_mul] at hsize
      omega
    | fat32 =>
      have hsize := (hg.fat32 htype).2
      rw [hzero', Nat.zero_mul] at hsize
      omega
  omega

theorem clust2sect_eq (hg : g.WellFormed) (hc : g.InRange c) :
    g.clust2sect c = g.sectorOf c ∧ g.sectorOf c ≠ 0 := by
  have hpos := database_pos hg
  have h₁ := hc.1
  have h₂ := hc.2
  have hdata := hg.data_le
  have hle := Nat.le_mul_of_pos_right (g.nFatent - 2) hg.csize_pos
  unfold noSector at hdata
  have hclst : (c + (2 ^ 32 - 2)) % 2 ^ 32 = c - 2 := by omega
  rw [Geometry.clust2sect, hclst, if_neg (by omega), Geometry.sectorOf]
  exact ⟨rfl, by omega⟩

/-- The sectors of a cluster are of the data area. -/
theorem inClust_bounds (hc : g.InRange c) (h : g.InClust c s) :
    g.database ≤ s ∧ s < g.database + (g.nFatent - 2) * g.csize := by
  have h₁ := hc.1
  have h₂ := hc.2
  have hlow := h.1
  have hhigh := h.2
  have hle := Nat.mul_le_mul_right g.csize (show c - 2 + 1 ≤ g.nFatent - 2 by omega)
  rw [Nat.succ_mul] at hle
  unfold Geometry.sectorOf at hlow hhigh
  omega

theorem inClust_plain (hg : g.WellFormed) (hc : g.InRange c) (h : g.InClust c s) :
    g.Plain s ∧ ¬ g.InFat s := by
  obtain ⟨hlow, hhigh⟩ := inClust_bounds hc h
  have hdata := hg.data_le
  have hfat := hg.fat_le
  have hone := Nat.le_mul_of_pos_left g.fsize hg.nFats_pos
  refine ⟨⟨by omega, fun hcopies => ?_⟩, fun hin => ?_⟩
  · have hlt := hcopies.2
    omega
  · have hlt := hin.2
    omega

/-- A sector is in one cluster. -/
theorem inClust_unique (hc : g.InRange c) (hc' : g.InRange c') (h : g.InClust c s)
    (h' : g.InClust c' s) : c = c' := by
  have h₁ := h.1
  have h₂ := h.2
  have h₃ := h'.1
  have h₄ := h'.2
  unfold Geometry.sectorOf at h₁ h₂ h₃ h₄
  have hmin := hc.1
  have hmin' := hc'.1
  rcases Nat.lt_trichotomy c c' with hlt | heq | hlt
  · have hle := Nat.mul_le_mul_right g.csize (show c - 2 + 1 ≤ c' - 2 by omega)
    rw [Nat.succ_mul] at hle
    omega
  · exact heq
  · have hle := Nat.mul_le_mul_right g.csize (show c' - 2 + 1 ≤ c - 2 by omega)
    rw [Nat.succ_mul] at hle
    omega

/-- A sector of a file is in one of its clusters. -/
theorem place_inClust (hg : g.WellFormed) (hk : k < l.length * g.csize) :
    ∃ c, l[k / g.csize]? = some c ∧ c ∈ l ∧ g.InClust c (g.place l k) := by
  have hlt : k / g.csize < l.length := (Nat.div_lt_iff_lt_mul hg.csize_pos).mpr hk
  have hmod := Nat.mod_lt k hg.csize_pos
  refine ⟨l[k / g.csize], List.getElem?_eq_getElem hlt, List.getElem_mem hlt, ?_⟩
  rw [Geometry.place, List.getElem?_eq_getElem hlt]
  exact ⟨Nat.le_add_right _ _, Nat.add_lt_add_left hmod _⟩

/-- Different sectors of a file are at different places. -/
theorem place_inj (hg : g.WellFormed) (hl : ∀ c ∈ l, g.InRange c) (hnodup : l.Nodup)
    (hk : k < l.length * g.csize) (hk' : k' < l.length * g.csize)
    (h : g.place l k = g.place l k') : k = k' := by
  obtain ⟨c, hget, hmem, hin⟩ := place_inClust hg hk
  obtain ⟨c', hget', hmem', hin'⟩ := place_inClust hg hk'
  rw [h] at hin
  obtain rfl := inClust_unique (hl c hmem) (hl c' hmem') hin hin'
  have hlt : k / g.csize < l.length := (Nat.div_lt_iff_lt_mul hg.csize_pos).mpr hk
  have hindex : k / g.csize = k' / g.csize :=
    (List.getElem?_inj hlt hnodup).mp (hget.trans hget'.symm)
  have hmod : k % g.csize = k' % g.csize := by
    unfold Geometry.place at h
    rw [hindex] at h
    omega
  rw [← Nat.div_add_mod k g.csize, hindex, hmod, Nat.div_add_mod]

/-- Sectors in a row, in one cluster. -/
theorem place_add (hg : g.WellFormed) (hj : k % g.csize + j < g.csize) :
    g.place l (k + j) = g.place l k + j := by
  have hsplit : k + j = k % g.csize + j + g.csize * (k / g.csize) := by
    have hk := Nat.div_add_mod k g.csize
    omega
  have hdiv : (k + j) / g.csize = k / g.csize := by
    rw [hsplit, Nat.add_mul_div_left _ _ hg.csize_pos, Nat.div_eq_of_lt hj, Nat.zero_add]
  have hmod : (k + j) % g.csize = k % g.csize + j := by
    rw [hsplit, Nat.add_mul_mod_self_left, Nat.mod_eq_of_lt hj]
  rw [Geometry.place, Geometry.place, hdiv, hmod, Nat.add_assoc]

/-- A chain that goes on. -/
theorem place_append (hg : g.WellFormed) (hk : k < l.length * g.csize) :
    g.place (l ++ l') k = g.place l k := by
  have hlt : k / g.csize < l.length := (Nat.div_lt_iff_lt_mul hg.csize_pos).mpr hk
  rw [Geometry.place, Geometry.place, List.getElem?_append_left hlt]

end Layout

end OlivePiccolo.FatFs
