import OlivePiccolo.FatFs.Layout

/-!
# A volume with files

What holds of a volume while files are read and written: the clusters of each file are a chain of
the FAT, and no cluster belongs to two files. `Good ok pool fs q` says so of the chains `q`; `ok` is
that the device does not fail, and the clusters of `pool` are those that files can have, with no
sector of theirs in the window. Looking at the FAT and reading keep all of it (`Good.getFat`,
`Good.read`), and so does writing to a cluster of the pool (`Good.write`); `create_chain` and
`remove_chain` change one chain (`Good.createChain`, `Good.removeChain`). With a device that fails,
clusters may be lost, but chains still have no cluster in common.
-/

namespace OlivePiccolo.FatFs

open ChainTable

/-- How many clusters are free. -/
def FATFS.nfree (fs : FATFS) : ℕ := (free fs.nFatent fs.entry).card

/-- The chains of a volume. -/
structure Good {ι : Type*} (ok : Prop) (pool : ℕ → Prop) (fs : FATFS) (q : ι → List ℕ) : Prop where
  wellFormed : fs.WellFormed
  sized : fs.Sized
  coherent : fs.Coherent
  fine : ok → fs.Fine
  /-- Entries of 12 bits may be left half written. -/
  fat12 : fs.fsType = .fat12 → ok
  chains : Chains fs.nFatent fs.entry q
  valid : ∀ c, fs.InRange c → fs.entry c ≠ 1
  pooled : ∀ c, fs.InRange c → fs.entry c = 0 → pool c
  owned : ∀ i, ∀ c ∈ q i, pool c
  apart : ∀ c s, fs.InRange c → pool c → fs.InClust c s → s ≠ fs.winsect
  dword : fs.freeClust < 2 ^ 32
  count : fs.freeClust ≠ unknown → fs.nfree ≤ fs.freeClust
  exact : ok → fs.freeClust ≠ unknown → fs.freeClust = fs.nfree

/-- Nothing has happened to the sectors of the pool. -/
structure Quiet (pool : ℕ → Prop) (fs fs' : FATFS) : Prop where
  geometry : fs'.toGeometry = fs.toGeometry
  sectors : ∀ c s, fs.InRange c → pool c → fs.InClust c s →
    fs'.disk.sectors s = fs.disk.sectors s

namespace Quiet

variable {pool : ℕ → Prop} {fs fs' fs'' : FATFS}

theorem rfl : Quiet pool fs fs := ⟨Eq.refl _, fun _ _ _ _ _ => Eq.refl _⟩

theorem trans (h : Quiet pool fs fs') (h' : Quiet pool fs' fs'') : Quiet pool fs fs'' := by
  refine ⟨h'.geometry.trans h.geometry, fun c s hc hp hs => ?_⟩
  rw [h'.sectors c s (by rwa [h.geometry]) hp (by rwa [h.geometry]), h.sectors c s hc hp hs]

end Quiet

namespace Good

variable {ι : Type*} {ok : Prop} {pool : ℕ → Prop} {fs fs' : FATFS} {q q' : ι → List ℕ} {i : ι}
  {c d s clst count : ℕ} {l : List ℕ} {T : ℕ → ℕ}

theorem inRange (h : Good ok pool fs q) (hc : c ∈ q i) : fs.InRange c := h.chains.place i c hc

theorem plain (h : Good ok pool fs q) (hc : fs.InRange c) (hs : fs.InClust c s) :
    fs.Plain s ∧ ¬ fs.InFat s := inClust_plain h.wellFormed hc hs

/-! ## The table -/

/-- A volume with another table. -/
theorem change (h : Good ok pool fs q) (hgeometry : fs'.toGeometry = fs.toGeometry)
    (hcoherent : fs'.Coherent) (hfine : ok → fs'.Fine)
    (hentry : ∀ c, fs.InRange c → fs'.entry c = T c)
    (haside : ∀ c s, fs.InRange c → pool c → fs.InClust c s →
      fs'.disk.sectors s = fs.disk.sectors s ∧ s ≠ fs'.winsect)
    (hchains : Chains fs.nFatent T q') (hvalid : ∀ c, fs.InRange c → T c ≠ 1)
    (hpooled : ∀ c, fs.InRange c → T c = 0 → pool c) (howned : ∀ i, ∀ c ∈ q' i, pool c)
    (hdword : fs'.freeClust < 2 ^ 32)
    (hcount : fs'.freeClust ≠ unknown → (free fs.nFatent T).card ≤ fs'.freeClust)
    (hexact : ok → fs'.freeClust ≠ unknown → fs'.freeClust = (free fs.nFatent T).card) :
    Good ok pool fs' q' ∧ Quiet pool fs fs' ∧ fs'.nfree = (free fs.nFatent T).card := by
  have hnfree : fs'.nfree = (free fs.nFatent T).card := by
    rw [FATFS.nfree, hgeometry, free_congr fun c h₁ h₂ => hentry c ⟨h₁, h₂⟩]
  refine ⟨⟨?_, ?_, hcoherent, hfine, ?_, ?_, ?_, ?_, howned, ?_, hdword, ?_, ?_⟩,
    ⟨hgeometry, fun c s hc hp hs => (haside c s hc hp hs).1⟩, hnfree⟩
  · rw [hgeometry]
    exact h.wellFormed
  · rw [hgeometry]
    exact h.sized
  · rw [hgeometry]
    exact h.fat12
  · rw [hgeometry]
    refine hchains.congr fun i c hc => ?_
    exact hentry c (hchains.place i c hc)
  · rw [hgeometry]
    intro c hc
    rw [hentry c hc]
    exact hvalid c hc
  · rw [hgeometry]
    intro c hc hzero
    rw [hentry c hc] at hzero
    exact hpooled c hc hzero
  · rw [hgeometry]
    exact fun c s hc hp hs => (haside c s hc hp hs).2
  · rw [hnfree]
    exact hcount
  · rw [hnfree]
    exact hexact

/-- A volume after something has been done to its table. -/
theorem shows (h : Good ok pool fs q) (hshows : fs.Shows T fs')
    (hchains : Chains fs.nFatent T q') (hvalid : ∀ c, fs.InRange c → T c ≠ 1)
    (hpooled : ∀ c, fs.InRange c → T c = 0 → pool c) (howned : ∀ i, ∀ c ∈ q' i, pool c)
    (hdword : fs'.freeClust < 2 ^ 32)
    (hcount : fs'.freeClust ≠ unknown → (free fs.nFatent T).card ≤ fs'.freeClust)
    (hexact : ok → fs'.freeClust ≠ unknown → fs'.freeClust = (free fs.nFatent T).card) :
    Good ok pool fs' q' ∧ Quiet pool fs fs' ∧ fs'.nfree = (free fs.nFatent T).card :=
  h.change hshows.geometry hshows.coherent (fun hok => hshows.fine (h.fine hok)) hshows.entry
    (fun c s hc hp hs => hshows.aside s (h.plain hc hs).1 (h.plain hc hs).2 (h.apart c s hc hp hs))
    hchains hvalid hpooled howned hdword hcount hexact

/-- A volume with the same table. -/
theorem keep (h : Good ok pool fs q) (hgeometry : fs'.toGeometry = fs.toGeometry)
    (hcoherent : fs'.Coherent) (hfine : ok → fs'.Fine)
    (hentry : ∀ c, fs.InRange c → fs'.entry c = fs.entry c)
    (haside : ∀ c s, fs.InRange c → pool c → fs.InClust c s →
      fs'.disk.sectors s = fs.disk.sectors s ∧ s ≠ fs'.winsect)
    (hcount : fs'.freeClust = fs.freeClust) :
    Good ok pool fs' q ∧ Quiet pool fs fs' ∧ fs'.nfree = fs.nfree := by
  refine h.change hgeometry hcoherent hfine hentry haside h.chains h.valid h.pooled h.owned ?_ ?_ ?_
  · rw [hcount]
    exact h.dword
  · rw [hcount]
    exact h.count
  · rw [hcount]
    exact h.exact

theorem stays (h : Good ok pool fs q) (hstays : fs.Stays fs') :
    Good ok pool fs' q ∧ Quiet pool fs fs' ∧ fs'.nfree = fs.nfree := by
  refine h.shows hstays.shows h.chains h.valid h.pooled h.owned ?_ ?_ ?_
  · rw [hstays.freeClust]
    exact h.dword
  · rw [hstays.freeClust]
    exact h.count
  · rw [hstays.freeClust]
    exact h.exact

/-- `get_fat` on a volume. -/
theorem getFat (h : Good ok pool fs q) (hc : fs.InRange c) :
    Good ok pool (getFat fs c).2 q ∧ Quiet pool fs (FatFs.getFat fs c).2 ∧
      (FatFs.getFat fs c).2.nfree = fs.nfree ∧
        ((FatFs.getFat fs c).1 = fs.entry c ∨ (FatFs.getFat fs c).1 = diskError ∧ ¬ ok) := by
  obtain ⟨hstays, hres⟩ := (FATFS.Stays.rfl h.coherent).getFat h.wellFormed hc
  obtain ⟨hgood, hquiet, hnfree⟩ := h.stays hstays
  refine ⟨hgood, hquiet, hnfree, hres.imp_right fun herr => ⟨herr.1, fun hok => ?_⟩⟩
  exact herr.2 (h.fine hok)

/-- The entry of a cluster of a chain that is not the last one. -/
theorem entry_next {front back : List ℕ} (h : Good ok pool fs q)
    (hq : q i = front ++ c :: d :: back) : fs.entry c = d := by
  have hlinked := h.chains.linked i
  rw [hq] at hlinked
  exact hlinked.next

/-- The entry of the last cluster of a chain. -/
theorem entry_last {front : List ℕ} (h : Good ok pool fs q) (hq : q i = front ++ [c]) :
    fs.nFatent ≤ fs.entry c := by
  have hlinked := h.chains.linked i
  rw [hq] at hlinked
  exact hlinked.last

/-! ## The sectors -/

/-- A volume after something has been done to the clusters of the pool. -/
theorem disk (h : Good ok pool fs q) {disk : Disk} (hsound : ok → disk.Sound)
    (hsectors : ∀ s, (∀ c, fs.InRange c → pool c → ¬ fs.InClust c s) →
      disk.sectors s = fs.disk.sectors s) :
    Good ok pool { fs with disk := disk } q ∧
      FATFS.nfree { fs with disk := disk } = fs.nfree := by
  have hview (s : ℕ) (hs : fs.InFat s) : FATFS.view { fs with disk := disk } s = fs.view s := by
    unfold FATFS.view
    split_ifs
    · rfl
    · exact hsectors s fun c hc _ hin => (h.plain hc hin).2 hs
  have hentry (c : ℕ) (hc : fs.InRange c) : FATFS.entry { fs with disk := disk } c = fs.entry c :=
    FsType.entry_congr h.wellFormed hc fun k hk => by
      rw [Geometry.fatByte, Geometry.fatByte, hview _ (inFat_of_inTable h.wellFormed hk)]
  have hnfree : FATFS.nfree { fs with disk := disk } = fs.nfree :=
    congrArg Finset.card (free_congr fun c h₁ h₂ => hentry c ⟨h₁, h₂⟩)
  have hfine (hok : ok) : FATFS.Fine { fs with disk := disk } := by
    refine ⟨hsound hok, fun s hs hwin k hk => ?_⟩
    have hmirrored := (h.fine hok).2 s hs hwin k hk
    rw [hsectors _ fun c hc _ hin => (h.plain hc hin).1.2 (inCopies_of_copy hs hk),
      hsectors s fun c hc _ hin => (h.plain hc hin).2 hs]
    exact hmirrored
  refine ⟨⟨h.wellFormed, h.sized, ⟨fun hclean hwin => ?_, h.coherent.dirty, h.coherent.winsect⟩,
    hfine, h.fat12, ?_, ?_, ?_, h.owned, h.apart, h.dword, ?_, ?_⟩, hnfree⟩
  · exact (h.coherent.clean hclean hwin).trans
      (hsectors _ fun c hc hp hin => h.apart c _ hc hp hin rfl).symm
  · exact h.chains.congr fun j c hc => hentry c (h.inRange hc)
  · intro c hc
    rw [hentry c hc]
    exact h.valid c hc
  · intro c hc hzero
    rw [hentry c hc] at hzero
    exact h.pooled c hc hzero
  · rw [hnfree]
    exact h.count
  · rw [hnfree]
    exact h.exact

/-- A sector is read. -/
theorem read (h : Good ok pool fs q) (s : ℕ) :
    Good ok pool { fs with disk := (fs.disk.read s).2.2 } q ∧
      Quiet pool fs { fs with disk := (fs.disk.read s).2.2 } ∧
        FATFS.nfree { fs with disk := (fs.disk.read s).2.2 } = fs.nfree ∧
          (ok → (fs.disk.read s).1 = true ∧
            ∀ k, (fs.disk.read s).2.1 k = fs.disk.sectors (s + k)) := by
  have hsectors : (fs.disk.read s).2.2.sectors = fs.disk.sectors := Disk.read_sectors
  have hsound (hok : ok) : (fs.disk.read s).2.2.Sound := by
    rw [(h.fine hok).1.read]
    exact (h.fine hok).1.next
  obtain ⟨hgood, hnfree⟩ := h.disk hsound fun s _ => congrFun hsectors s
  refine ⟨hgood, ⟨rfl, fun c s _ _ _ => congrFun hsectors s⟩, hnfree, fun hok => ?_⟩
  rw [(h.fine hok).1.read]
  exact ⟨rfl, fun k => rfl⟩

/-- Sectors of the pool are written. -/
theorem write (h : Good ok pool fs q) (buff : ℕ → Sector) {s count : ℕ}
    (hs : ∀ t, s ≤ t → t < s + count → ∃ c, fs.InRange c ∧ pool c ∧ fs.InClust c t) :
    Good ok pool { fs with disk := (fs.disk.write buff s count).2 } q ∧
      FATFS.nfree { fs with disk := (fs.disk.write buff s count).2 } = fs.nfree ∧
        (ok → (fs.disk.write buff s count).1 = true ∧ ∀ t,
          (fs.disk.write buff s count).2.sectors t =
            if s ≤ t ∧ t < s + count then buff (t - s) else fs.disk.sectors t) := by
  have hsound (hok : ok) : (fs.disk.write buff s count).2.Sound := by
    rw [(h.fine hok).1.write]
    exact (h.fine hok).1.next
  have hsectors (t : ℕ) (ht : ∀ c, fs.InRange c → pool c → ¬ fs.InClust c t) :
      (fs.disk.write buff s count).2.sectors t = fs.disk.sectors t := by
    refine Disk.write_of_not fun hin => ?_
    obtain ⟨c, hc, hp, hct⟩ := hs t hin.1 hin.2
    exact ht c hc hp hct
  obtain ⟨hgood, hnfree⟩ := h.disk hsound hsectors
  refine ⟨hgood, hnfree, fun hok => ?_⟩
  rw [(h.fine hok).1.write]
  exact ⟨rfl, fun t => rfl⟩

end Good

/-! ## The chains -/

/-- What `create_chain` can do with the chain of a file. -/
inductive Grown {ι : Type*} [DecidableEq ι] (ok : Prop) (pool : ℕ → Prop) (fs : FATFS)
    (q : ι → List ℕ) (i : ι) (clst : ℕ) : ℕ × FATFS → Prop
  | full {fs' : FATFS} : (clst = 0 ∧ q i = [] ∨ ∃ front, q i = front ++ [clst]) →
      Good ok pool fs' q → Quiet pool fs fs' → fs.nfree = 0 → fs'.nfree = fs.nfree →
      Grown ok pool fs q i clst (0, fs')
  | next {fs' : FATFS} (front back : List ℕ) (d : ℕ) : Good ok pool fs' q → Quiet pool fs fs' →
      q i = front ++ clst :: d :: back → fs'.nfree = fs.nfree → Grown ok pool fs q i clst (d, fs')
  | failed {fs' : FATFS} : ¬ ok → Good ok pool fs' q → Quiet pool fs fs' →
      Grown ok pool fs q i clst (diskError, fs')
  | new {fs' : FATFS} (u : ℕ) : fs.InRange u → pool u → (∀ j, u ∉ q j) →
      (clst = 0 ∧ q i = [] ∨ ∃ front, q i = front ++ [clst]) →
      Good ok pool fs' (Function.update q i (q i ++ [u])) → Quiet pool fs fs' →
      fs'.nfree + 1 = fs.nfree → Grown ok pool fs q i clst (u, fs')

namespace Good

variable {ι : Type*} {ok : Prop} {pool : ℕ → Prop} {fs fs' : FATFS} {q q' : ι → List ℕ} {i : ι}
  {c d s clst count u : ℕ} {l : List ℕ} {T : ℕ → ℕ}

theorem not_mem_of_free (h : Good ok pool fs q) (hfree : fs.entry u = 0) (j : ι) : u ∉ q j := by
  intro hu
  have htwo := h.chains.two_le hu
  omega

/-- A cluster has been taken and not linked. -/
theorem lost (h : Good ok pool fs q) (hu : fs.InRange u) (hfree : fs.entry u = 0)
    (hok : ¬ ok) (hcount : fs'.freeClust = fs.freeClust)
    (hshows : fs.Shows (Function.update fs.entry u fs.mark) fs') :
    Good ok pool fs' q ∧ Quiet pool fs fs' := by
  have hmark := nFatent_le_mark h.wellFormed
  have hthree := h.wellFormed.nFatent
  have hcard := card_free_of_take (v := fs.mark) hu hfree (by omega)
  have hchains : Chains fs.nFatent (Function.update fs.entry u fs.mark) q := by
    refine h.chains.congr fun j c hc => Function.update_of_ne (fun heq => ?_) _ _
    exact h.not_mem_of_free hfree j (heq ▸ hc)
  have hentry (c : ℕ) (hc : Function.update fs.entry u fs.mark c < 2) :
      Function.update fs.entry u fs.mark c = fs.entry c := by
    rw [Function.update_apply] at hc ⊢
    split_ifs at hc ⊢
    · omega
    · rfl
  have hall := h.shows hshows hchains (fun c hc hone => ?_) (fun c hc hzero => ?_) h.owned ?_ ?_
    fun h => absurd h hok
  · exact ⟨hall.1, hall.2.1⟩
  · rw [hentry c (by omega)] at hone
    exact h.valid c hc hone
  · rw [hentry c (by omega)] at hzero
    exact h.pooled c hc hzero
  · rw [hcount]
    exact h.dword
  · rw [hcount]
    intro hknown
    have hle := h.count hknown
    unfold FATFS.nfree at hle
    omega

variable [DecidableEq ι]

/-- A cluster begins a chain. -/
theorem taken_start (h : Good ok pool fs q) (hq : q i = []) (hu : fs.InRange u)
    (hfree : fs.entry u = 0) :
    Chains fs.nFatent (fs.taken 0 u) (Function.update q i (q i ++ [u])) ∧
      (free fs.nFatent (fs.taken 0 u)).card + 1 = fs.nfree ∧
        ∀ c, fs.taken 0 u c < 2 → fs.taken 0 u c = fs.entry c := by
  have hmark := nFatent_le_mark h.wellFormed
  have hthree := h.wellFormed.nFatent
  have htaken : fs.taken 0 u = Function.update fs.entry u fs.mark := by
    rw [FATFS.taken, if_pos rfl]
  rw [htaken, hq]
  refine ⟨h.chains.start hu hfree ?_ fun c hc => Function.update_of_ne hc _ _,
    card_free_of_take hu hfree (by omega), fun c hc => ?_⟩
  · rw [Function.update_self]
    exact hmark
  · rw [Function.update_apply] at hc ⊢
    split_ifs at hc ⊢
    · omega
    · rfl

/-- A cluster goes on a chain. -/
theorem taken_grow {front : List ℕ} (h : Good ok pool fs q) (hq : q i = front ++ [clst])
    (hu : fs.InRange u) (hfree : fs.entry u = 0) :
    Chains fs.nFatent (fs.taken clst u) (Function.update q i (q i ++ [u])) ∧
      (free fs.nFatent (fs.taken clst u)).card + 1 = fs.nfree ∧
        ∀ c, fs.taken clst u c < 2 → fs.taken clst u c = fs.entry c := by
  have hmark := nFatent_le_mark h.wellFormed
  have hthree := h.wellFormed.nFatent
  have htwo := hu.1
  have hlast := h.entry_last hq
  have hrange := h.inRange (show clst ∈ q i by simp [hq])
  have hone := hrange.1
  have hne : clst ≠ u := by
    rintro rfl
    omega
  have htaken : fs.taken clst u = Function.update (Function.update fs.entry u fs.mark) clst u :=
    if_neg (by omega)
  rw [htaken]
  refine ⟨h.chains.grow hq hu hfree ?_ (Function.update_self _ _ _) fun a ha ha' => ?_, ?_,
    fun c hc => ?_⟩
  · rw [Function.update_of_ne hne.symm, Function.update_self]
    exact hmark
  · rw [Function.update_of_ne ha', Function.update_of_ne ha]
  · rw [free_of_used]
    · exact card_free_of_take hu hfree (by omega)
    · rw [Function.update_of_ne hne]
      omega
    · omega
  · rw [Function.update_apply, Function.update_apply] at hc ⊢
    split_ifs at hc ⊢
    · omega
    · omega
    · rfl

omit [DecidableEq ι] in
/-- A cluster that ends a chain is the last one of it. -/
theorem last_of (h : Good ok pool fs q) (hclst : clst = 0 ∧ q i = [] ∨ clst ∈ q i)
    (hend : clst ≠ 0 → fs.nFatent ≤ fs.entry clst) :
    clst = 0 ∧ q i = [] ∨ ∃ front, q i = front ++ [clst] := by
  refine hclst.imp_right fun hmem => ?_
  obtain ⟨front, back, hq⟩ := List.append_of_mem hmem
  have hone := (h.inRange hmem).1
  cases back with
  | nil => exact ⟨front, hq⟩
  | cons d back =>
    have hlt := (h.inRange (i := i) (c := d) (by simp [hq])).2
    have hle := hend (by omega)
    rw [h.entry_next hq] at hle
    omega

/-- A cluster has been taken and linked. -/
theorem took (h : Good ok pool fs q) (hclst : clst = 0 ∧ q i = [] ∨ clst ∈ q i)
    (hu : fs.InRange u) (hfree : fs.entry u = 0) (hend : clst ≠ 0 → fs.nFatent ≤ fs.entry clst)
    (hcount : fs'.freeClust = if fs.freeClust = unknown then unknown
      else (fs.freeClust + (2 ^ 32 - 1)) % 2 ^ 32)
    (hshows : fs.Shows (fs.taken clst u) fs') : Grown ok pool fs q i clst (u, fs') := by
  have hnot := h.not_mem_of_free hfree
  have hpool := h.pooled u hu hfree
  -- the chain, its end, and what is free now
  have htable : (clst = 0 ∧ q i = [] ∨ ∃ front, q i = front ++ [clst]) ∧
      Chains fs.nFatent (fs.taken clst u) (Function.update q i (q i ++ [u])) ∧
        (free fs.nFatent (fs.taken clst u)).card + 1 = fs.nfree ∧
          ∀ c, fs.taken clst u c < 2 → fs.taken clst u c = fs.entry c := by
    rcases h.last_of hclst hend with ⟨rfl, hq⟩ | ⟨front, hq⟩
    · exact ⟨.inl ⟨rfl, hq⟩, h.taken_start hq hu hfree⟩
    · exact ⟨.inr ⟨front, hq⟩, h.taken_grow hq hu hfree⟩
  obtain ⟨hwhere, hchains, hcount', hentry⟩ := htable
  have howned (j : ι) (c : ℕ) (hc : c ∈ Function.update q i (q i ++ [u]) j) : pool c := by
    by_cases hij : j = i
    · rw [hij, Function.update_self, List.mem_append, List.mem_singleton] at hc
      rcases hc with hc | rfl
      · exact h.owned i c hc
      · exact hpool
    · rw [Function.update_of_ne hij] at hc
      exact h.owned j c hc
  have hdword := h.dword
  have hall := h.shows hshows hchains (fun c hc hone => ?_) (fun c hc hzero => ?_) howned ?_ ?_ ?_
  · exact .new u hu hpool hnot hwhere hall.1 hall.2.1 (by rw [hall.2.2, hcount'])
  · rw [hentry c (by omega)] at hone
    exact h.valid c hc hone
  · rw [hentry c (by omega)] at hzero
    exact h.pooled c hc hzero
  · rw [hcount]
    unfold unknown
    split_ifs <;> omega
  · intro hknown
    rw [hcount] at hknown ⊢
    split_ifs at hknown ⊢ with hold
    · exact absurd rfl hknown
    · have hle := h.count hold
      omega
  · intro hok hknown
    rw [hcount] at hknown ⊢
    split_ifs at hknown ⊢ with hold
    · exact absurd rfl hknown
    · have heq := h.exact hok hold
      omega

/-- **A file gets a cluster.** -/
theorem createChain (h : Good ok pool fs q)
    (hclst : clst = 0 ∧ q i = [] ∨ clst ∈ q i) {fuel : ℕ} (hfuel : fs.nFatent < fuel) :
    Ensures (createChain fuel fs clst) (Grown ok pool fs q i clst) := by
  have hrange : clst ≠ 0 → fs.InRange clst := fun hne =>
    h.inRange (hclst.resolve_left fun hnew => hne hnew.1)
  refine (createChain_created h.coherent h.wellFormed hrange hfuel).mono fun r hr => ?_
  cases hr with
  | full hstays hfull hend =>
    obtain ⟨hgood, hquiet, hnfree⟩ := h.stays hstays
    refine .full (h.last_of hclst hend) hgood hquiet ?_ hnfree
    rw [FATFS.nfree, Finset.card_eq_zero, Finset.eq_empty_iff_forall_notMem]
    intro c hc
    obtain ⟨hlt, htwo, hzero⟩ := mem_free.mp hc
    exact hfull c ⟨htwo, hlt⟩ hzero
  | next hstays hne hnext =>
    obtain ⟨hgood, hquiet, hnfree⟩ := h.stays hstays
    have hmem := hclst.resolve_left fun hnew => hne hnew.1
    obtain ⟨front, back, hq⟩ := List.append_of_mem hmem
    cases back with
    | nil =>
      have hlast := h.entry_last hq
      exact absurd hnext.2 (Nat.not_lt.mpr hlast)
    | cons d back =>
      rw [h.entry_next hq]
      exact .next front back d hgood hquiet hq hnfree
  | invalid hstays hinvalid =>
    rcases hinvalid with ⟨hne, hlt⟩ | ⟨c, hc, hone⟩
    · have htwo := h.chains.two_le (hclst.resolve_left fun hnew => hne hnew.1)
      omega
    · exact absurd hone (h.valid c hc)
  | failed hfine hcount hdamaged hshows =>
    have hok : ¬ ok := fun hok => hfine (h.fine hok)
    rcases hdamaged with rfl | htype | ⟨u, hu, hfree, rfl⟩
    · obtain ⟨hgood, hquiet, -⟩ := h.stays ⟨hcount, hshows⟩
      exact .failed hok hgood hquiet
    · exact absurd (h.fat12 htype) hok
    · obtain ⟨hgood, hquiet⟩ := h.lost hu hfree hok hcount hshows
      exact .failed hok hgood hquiet
  | new u hu hfree hend hcount hshows => exact h.took hclst hu hfree hend hcount hshows

/-- A chain that is of no file any more. -/
structure Dropped (pool : ℕ → Prop) (fs : FATFS) (q : ι → List ℕ) (l : List ℕ) : Prop where
  linked : Linked fs.nFatent fs.entry l
  place : ∀ c ∈ l, fs.InRange c
  nodup : l.Nodup
  pooled : ∀ c ∈ l, pool c
  apart : ∀ i, ∀ c ∈ l, c ∉ q i

omit [DecidableEq ι] in
/-- Clusters of such a chain are free. -/
theorem clear (h : Good ok pool fs q) (hl : Dropped pool fs q l) {front back : List ℕ}
    (heq : l = front ++ back) (hcount : fs'.freeClust = countUp^[front.length] fs.freeClust)
    (hshows : fs.Shows (cleared fs.entry front) fs') :
    Good ok pool fs' q ∧ Quiet pool fs fs' ∧ fs'.nfree = fs.nfree + front.length := by
  have hmem (c : ℕ) (hc : c ∈ front) : c ∈ l := by
    rw [heq]
    exact List.mem_append_left back hc
  have hused (c : ℕ) (hc : c ∈ l) : fs.entry c ≠ 0 := by
    obtain ⟨a, b, hab⟩ := List.append_of_mem hc
    have hlinked := hl.linked
    rw [hab] at hlinked
    have hthree := h.wellFormed.nFatent
    cases b with
    | nil =>
      have hlast := hlinked.last
      omega
    | cons d b =>
      have hd := (hl.place d (by simp [hab])).1
      rw [hlinked.next]
      omega
  have hnodup := hl.nodup
  rw [heq, List.nodup_append] at hnodup
  have hcard : (free fs.nFatent (cleared fs.entry front)).card = fs.nfree + front.length :=
    card_free_cleared (fun c hc => hl.place c (hmem c hc)) hnodup.1 fun c hc => hused c (hmem c hc)
  have hdword := h.dword
  rw [countUp_iterate h.dword] at hcount
  unfold unknown at hcount
  have hchains : Chains fs.nFatent (cleared fs.entry front) q :=
    h.chains.congr fun j c hc => if_neg fun hfront => hl.apart j c (hmem c hfront) hc
  have hvalid (c : ℕ) (hc : fs.InRange c) : cleared fs.entry front c ≠ 1 := by
    unfold cleared
    split_ifs
    · exact Nat.zero_ne_one
    · exact h.valid c hc
  have hpooled (c : ℕ) (hc : fs.InRange c) (hzero : cleared fs.entry front c = 0) : pool c := by
    unfold cleared at hzero
    split_ifs at hzero with hfront
    · exact hl.pooled c (hmem c hfront)
    · exact h.pooled c hc hzero
  have hall := h.shows hshows hchains hvalid hpooled h.owned (by omega) ?_ ?_
  · rw [hcard] at hall
    exact hall
  · intro hknown
    unfold unknown at hknown
    have hle := h.count (by unfold unknown; omega)
    omega
  · intro hok hknown
    unfold unknown at hknown
    have heq := h.exact hok (by unfold unknown; omega)
    omega

omit [DecidableEq ι] in
/-- **A chain is given back.** -/
theorem removeChain (h : Good ok pool fs q) (hl : Dropped pool fs q (clst :: l)) {fuel : ℕ}
    (hfuel : fs.nFatent < fuel) :
    Ensures (removeChain fuel fs clst) fun r => Good ok pool r.2 q ∧ Quiet pool fs r.2 ∧
      (r.1 = .ok ∧ r.2.nfree = fs.nfree + (l.length + 1) ∨ r.1 = .diskErr ∧ ¬ ok) := by
  refine (removeChain_removed h.coherent h.wellFormed hl.linked hl.place hl.nodup hfuel).mono
    fun r hr => ?_
  cases hr with
  | ok hcount hshows =>
    obtain ⟨hgood, hquiet, hnfree⟩ := h.clear hl (List.append_nil _).symm hcount hshows
    exact ⟨hgood, hquiet, .inl ⟨rfl, hnfree⟩⟩
  | failed front back hfine heq hcount hshows =>
    obtain ⟨hgood, hquiet, -⟩ := h.clear hl heq hcount hshows
    exact ⟨hgood, hquiet, .inr ⟨rfl, fun hok => hfine (h.fine hok)⟩⟩
  | half T hfine htype hshows => exact absurd (h.fine (h.fat12 htype)) hfine

/-- The clusters of a file are of no file any more. -/
theorem forget (h : Good ok pool fs q) (i : ι) :
    Good ok pool fs (Function.update q i []) ∧ Dropped pool fs (Function.update q i []) (q i) := by
  refine ⟨⟨h.wellFormed, h.sized, h.coherent, h.fine, h.fat12, h.chains.clear fun _ _ => rfl,
    h.valid, h.pooled, fun j c hc => ?_, h.apart, h.dword, h.count, h.exact⟩, h.chains.linked i,
    h.chains.place i, h.chains.nodup i, h.owned i, fun j c hc hj => ?_⟩
  · by_cases hij : j = i
    · rw [hij, Function.update_self] at hc
      cases hc
    · rw [Function.update_of_ne hij] at hc
      exact h.owned j c hc
  · by_cases hij : j = i
    · rw [hij, Function.update_self] at hj
      cases hj
    · rw [Function.update_of_ne hij] at hj
      exact hij (h.chains.disjoint j i c hj hc)

/-- A cluster becomes the end of its chain. -/
theorem marked (h : Good ok pool fs q) {front back : List ℕ} (hq : q i = front ++ c :: d :: back) :
    Chains fs.nFatent (Function.update fs.entry c fs.mark)
        (Function.update q i (front ++ [c])) ∧
      (free fs.nFatent (Function.update fs.entry c fs.mark)).card = fs.nfree ∧
        ∀ a, Function.update fs.entry c fs.mark a < 2 →
          Function.update fs.entry c fs.mark a = fs.entry a := by
  have hmark := nFatent_le_mark h.wellFormed
  have hthree := h.wellFormed.nFatent
  have htwo := h.chains.two_le (show c ∈ q i by simp [hq])
  refine ⟨h.chains.shrink hq ?_ fun a ha => Function.update_of_ne (fun heq => ha ?_) _ _, ?_,
    fun a ha => ?_⟩
  · rw [Function.update_self]
    exact hmark
  · rw [heq]
    exact List.mem_cons_self
  · rw [free_of_used (by omega) (by omega), FATFS.nfree]
  · rw [Function.update_apply] at ha ⊢
    split_ifs at ha ⊢
    · omega
    · rfl

/-- The clusters behind it are of no file any more. -/
theorem dropped (h : Good ok pool fs q) {front back : List ℕ} (hq : q i = front ++ c :: d :: back)
    (hgeometry : fs'.toGeometry = fs.toGeometry)
    (hentry : ∀ a, fs.InRange a → a ≠ c → fs'.entry a = fs.entry a) :
    Dropped pool fs' (Function.update q i (front ++ [c])) (d :: back) := by
  have hlinked := h.chains.linked i
  have hnodup := h.chains.nodup i
  have hq' : q i = (front ++ [c]) ++ d :: back := by rw [hq, List.append_assoc]; rfl
  rw [hq'] at hlinked hnodup
  have hmem (a : ℕ) (ha : a ∈ d :: back) : a ∈ q i ∧ a ∉ front ++ [c] := by
    rw [hq']
    refine ⟨List.mem_append_right _ ha, fun hfront => ?_⟩
    exact (List.nodup_append.mp hnodup).2.2 a hfront a ha rfl
  refine ⟨?_, fun a ha => ?_, (List.nodup_append.mp hnodup).2.1,
    fun a ha => h.owned i a (hmem a ha).1, fun j a ha hj => ?_⟩
  · rw [hgeometry]
    refine hlinked.back.congr fun a ha => hentry a (h.inRange (hmem a ha).1) ?_
    rintro rfl
    exact (hmem a ha).2 (by simp)
  · rw [hgeometry]
    exact h.inRange (hmem a ha).1
  · by_cases hij : j = i
    · rw [hij, Function.update_self] at hj
      exact (hmem a ha).2 hj
    · rw [Function.update_of_ne hij] at hj
      exact hij (h.chains.disjoint j i a hj (hmem a ha).1)

/-- **A chain is cut.** -/
theorem cut {front back : List ℕ} (h : Good ok pool fs q) (hq : q i = front ++ c :: d :: back) :
    (putFat fs c lastLink).1 = .ok ∧
        Good ok pool (putFat fs c lastLink).2 (Function.update q i (front ++ [c])) ∧
          Dropped pool (putFat fs c lastLink).2 (Function.update q i (front ++ [c])) (d :: back) ∧
            Quiet pool fs (putFat fs c lastLink).2 ∧ (putFat fs c lastLink).2.nfree = fs.nfree ∨
      (putFat fs c lastLink).1 = .diskErr ∧ ¬ ok ∧ Good ok pool (putFat fs c lastLink).2 q ∧
        Quiet pool fs (putFat fs c lastLink).2 := by
  have hci : c ∈ q i := by simp [hq]
  have hput := putFat_put (v := lastLink) h.coherent h.wellFormed (h.inRange hci)
  generalize putFat fs c lastLink = r at hput
  cases hput with
  | ok hcount hshows =>
    obtain ⟨hchains, hcard, hentry⟩ := h.marked hq
    have howned (j : ι) (a : ℕ) (ha : a ∈ Function.update q i (front ++ [c]) j) : pool a := by
      by_cases hij : j = i
      · rw [hij, Function.update_self] at ha
        refine h.owned i a ?_
        rw [hq, ← List.singleton_append, ← List.append_assoc]
        exact List.mem_append_left _ ha
      · rw [Function.update_of_ne hij] at ha
        exact h.owned j a ha
    have hall := h.shows hshows hchains (fun a ha hone => ?_) (fun a ha hzero => ?_) howned ?_ ?_ ?_
    · refine .inl ⟨rfl, hall.1, h.dropped hq hshows.geometry fun a ha hne => ?_, hall.2.1,
        hall.2.2.trans hcard⟩
      exact (hshows.entry a ha).trans (Function.update_of_ne hne _ _)
    · change Function.update fs.entry c fs.mark a = 1 at hone
      rw [hentry a (by omega)] at hone
      exact h.valid a ha hone
    · change Function.update fs.entry c fs.mark a = 0 at hzero
      rw [hentry a (by omega)] at hzero
      exact h.pooled a ha hzero
    · rw [hcount]
      exact h.dword
    · rw [hcount]
      exact fun hknown => Nat.le_trans (Nat.le_of_eq hcard) (h.count hknown)
    · rw [hcount]
      exact fun hok hknown => (h.exact hok hknown).trans hcard.symm
  | failed hcount hfine hshows =>
    obtain ⟨hgood, hquiet, -⟩ := h.stays ⟨hcount, hshows⟩
    exact .inr ⟨rfl, fun hok => hfine (h.fine hok), hgood, hquiet⟩
  | half w hcount hfine htype hshows => exact absurd (h.fine (h.fat12 htype)) hfine

end Good

end OlivePiccolo.FatFs
