import OlivePiccolo.FatFs.Chains

/-!
# Open files

`f_read`, `f_write`, `f_lseek`, `f_truncate` and `f_sync` of `ff.c`, with the sector buffer of each
file (`_FS_TINY` is 0). Bytes go between the buffer and the caller, or sectors in a row do between
the disk and the caller; the buffer is written back before it is used for another sector.

Positions and sizes are below 2^32.
-/

namespace OlivePiccolo.FatFs

/-- `FIL`, of an object that is valid on a volume. -/
structure FIL where
  faRead : Bool
  faWrite : Bool
  faWritten : Bool
  faDirty : Bool
  err : FResult
  fptr : ℕ
  fsize : ℕ
  sclust : ℕ
  clust : ℕ
  dsect : ℕ
  dirSect : ℕ
  /-- Where the directory entry is in its sector. -/
  dirPtr : ℕ
  buf : Sector

/-- How a part of a call ends. -/
inductive Stage
  | go
  /-- The volume is full. -/
  | full
  /-- `ABORT` -/
  | abort (res : FResult)

/-- `validate` -/
def validate (fs : FATFS) : FResult := if fs.fsType = .none then .invalidObject else .ok

/-- `clust2sect` -/
def Geometry.clust2sect (g : Geometry) (clst : ℕ) : ℕ :=
  let clst := (clst + (2 ^ 32 - 2)) % 2 ^ 32
  if g.nFatent - 2 ≤ clst then 0 else clst * g.csize + g.database

/-- The sector in the cluster. -/
def Geometry.csect (g : Geometry) (fptr : ℕ) : ℕ := fptr / g.ssize &&& (g.csize - 1)

/-- The sectors that are in a buffer. -/
def sectorsOf (ssize : ℕ) (buff : List UInt8) (k : ℕ) : Sector := fun i =>
  buff.getD (k * ssize + i) 0

/-- The bytes that are in sectors. -/
def bytesOf (ssize : ℕ) (buff : ℕ → Sector) (n : ℕ) : List UInt8 :=
  (List.range n).map fun i => buff (i / ssize) (i % ssize)

/-- Write back the sector buffer. -/
def writeBack (fs : FATFS) (fp : FIL) : Bool × FATFS × FIL :=
  if fp.faDirty then
    let (done, disk) := fs.disk.write (fun _ => fp.buf) fp.dsect 1
    (done, { fs with disk := disk }, if done then { fp with faDirty := false } else fp)
  else (true, fs, fp)

/-- Fill the sector buffer. -/
def fill (fs : FATFS) (fp : FIL) (sect : ℕ) : Bool × FATFS × FIL :=
  let (done, buff, disk) := fs.disk.read sect
  (done, { fs with disk := disk }, { fp with buf := buff 0 })

/-- The sectors in a row from a place in the cluster on. -/
def Geometry.clip (g : Geometry) (csect count : ℕ) : ℕ :=
  let cc := count / g.ssize
  if g.csize < csect + cc then g.csize - csect else cc

/-- The bytes up to the end of the sector. -/
def Geometry.part (g : Geometry) (fptr count : ℕ) : ℕ :=
  let cnt := g.ssize - fptr % g.ssize
  if count < cnt then count else cnt

/-! ## Read -/

/-- Update the current cluster. -/
def readFollow (fs : FATFS) (fp : FIL) (clst : ℕ) : Stage × FATFS × FIL :=
  if clst < 2 then (.abort .intErr, fs, fp)
  else if clst = diskError then (.abort .diskErr, fs, fp)
  else (.go, fs, { fp with clust := clst })

/-- Follow the chain. -/
def readCluster (fs : FATFS) (fp : FIL) : Stage × FATFS × FIL :=
  let (clst, fs) := if fp.fptr = 0 then (fp.sclust, fs) else getFat fs fp.clust
  readFollow fs fp clst

/-- The state of a transfer: the bytes still to be read, and those that have been. -/
abbrev Reading := FATFS × FIL × ℕ × List UInt8

/-- How a read ends. -/
abbrev ReadEnd := Stage × FATFS × FIL × List UInt8

/-- Read sectors directly; one of them may be in the sector buffer. -/
def readSectors (fs : FATFS) (fp : FIL) (btr : ℕ) (rbuff : List UInt8) (sect cc : ℕ) :
    Round Reading ReadEnd :=
  let (done, buff, disk) := fs.disk.read sect
  let fs := { fs with disk := disk }
  if ¬ done then .done (.abort .diskErr, fs, fp, rbuff)
  else
    let buff := if fp.faDirty ∧ sect ≤ fp.dsect ∧ fp.dsect < sect + cc then
      Function.update buff (fp.dsect - sect) fp.buf else buff
    let rcnt := fs.ssize * cc
    .again (fs, { fp with fptr := fp.fptr + rcnt }, btr - rcnt, rbuff ++ bytesOf fs.ssize buff rcnt)

/-- Load the sector if it is not in the sector buffer. -/
def readLoad (fs : FATFS) (fp : FIL) (sect : ℕ) : Bool × FATFS × FIL :=
  if fp.dsect ≠ sect then
    let (done, fs, fp) := writeBack fs fp
    if done then fill fs fp sect else (false, fs, fp)
  else (true, fs, fp)

/-- Get partial sector data from the sector buffer. -/
def readPart (fs : FATFS) (fp : FIL) (btr : ℕ) (rbuff : List UInt8) : Round Reading ReadEnd :=
  let rcnt := fs.part fp.fptr btr
  .again (fs, { fp with fptr := fp.fptr + rcnt }, btr - rcnt,
    rbuff ++ (List.range rcnt).map fun i => fp.buf (fp.fptr % fs.ssize + i))

/-- Read at the beginning of a sector. -/
def readSector (fs : FATFS) (fp : FIL) (btr : ℕ) (rbuff : List UInt8) (csect : ℕ) :
    Round Reading ReadEnd :=
  let sect := fs.clust2sect fp.clust
  if sect = 0 then .done (.abort .intErr, fs, fp, rbuff)
  else
    let sect := sect + csect
    if btr / fs.ssize ≠ 0 then readSectors fs fp btr rbuff sect (fs.clip csect btr)
    else
      let (done, fs, fp) := readLoad fs fp sect
      if ¬ done then .done (.abort .diskErr, fs, fp, rbuff)
      else readPart fs { fp with dsect := sect } btr rbuff

/-- A round of `f_read`. -/
def readRound : Reading → Option (Round Reading ReadEnd)
  | (fs, fp, btr, rbuff) =>
    if btr = 0 then some (.done (.go, fs, fp, rbuff))
    else if fp.fptr % fs.ssize = 0 then
      let csect := fs.csect fp.fptr
      let (stage, fs, fp) := if csect = 0 then readCluster fs fp else (.go, fs, fp)
      match stage with
      | .go => some (readSector fs fp btr rbuff csect)
      | stage => some (.done (stage, fs, fp, rbuff))
    else some (readPart fs fp btr rbuff)

/-- `f_read`: the result, and the bytes. -/
def fRead (fuel : ℕ) (fs : FATFS) (fp : FIL) (btr : ℕ) :
    Option (FResult × List UInt8 × FATFS × FIL) :=
  let res := validate fs
  if res ≠ .ok then some (res, [], fs, fp)
  else if fp.err ≠ .ok then some (fp.err, [], fs, fp)
  else if ¬ fp.faRead then some (.denied, [], fs, fp)
  else
    let remain := fp.fsize - fp.fptr
    let btr := if remain < btr then remain else btr
    (loop readRound fuel (fs, fp, btr, [])).map fun (stage, fs, fp, rbuff) =>
      match stage with
      | .abort res => (res, rbuff, fs, { fp with err := res })
      | _ => (.ok, rbuff, fs, fp)

/-! ## Write -/

/-- Update the current cluster, and the first one if the chain is new. -/
def writeFollow (fs : FATFS) (fp : FIL) (clst : ℕ) : Stage × FATFS × FIL :=
  if clst = 0 then (.full, fs, fp)
  else if clst = 1 then (.abort .intErr, fs, fp)
  else if clst = diskError then (.abort .diskErr, fs, fp)
  else
    let fp := { fp with clust := clst }
    (.go, fs, if fp.sclust = 0 then { fp with sclust := clst } else fp)

/-- Follow or stretch the chain. -/
def writeCluster (fuel : ℕ) (fs : FATFS) (fp : FIL) : Option (Stage × FATFS × FIL) :=
  (if fp.fptr = 0 then
    if fp.sclust = 0 then createChain fuel fs 0 else some (fp.sclust, fs)
  else createChain fuel fs fp.clust).map fun (clst, fs) => writeFollow fs fp clst

/-- The state of a transfer: the bytes still to be written. -/
abbrev Writing := FATFS × FIL × List UInt8

/-- How a write ends. -/
abbrev WriteEnd := Stage × FATFS × FIL × List UInt8

/-- Write sectors directly; the sector buffer may be one of them. -/
def writeSectors (fs : FATFS) (fp : FIL) (wbuff : List UInt8) (sect cc : ℕ) :
    Round Writing WriteEnd :=
  let (done, disk) := fs.disk.write (sectorsOf fs.ssize wbuff) sect cc
  let fs := { fs with disk := disk }
  if ¬ done then .done (.abort .diskErr, fs, fp, wbuff)
  else
    let wcnt := fs.ssize * cc
    -- refill the sector buffer if it gets invalidated
    let refill := sect ≤ fp.dsect ∧ fp.dsect < sect + cc
    .again (fs, { fp with
      buf := if refill then sectorsOf fs.ssize wbuff (fp.dsect - sect) else fp.buf
      faDirty := if refill then false else fp.faDirty
      fptr := fp.fptr + wcnt }, wbuff.drop wcnt)

/-- Fill the sector buffer, but not at the growing edge. -/
def writeLoad (fs : FATFS) (fp : FIL) (sect : ℕ) : Bool × FATFS × FIL :=
  if fp.dsect ≠ sect ∧ fp.fptr < fp.fsize then fill fs fp sect else (true, fs, fp)

/-- Put a partial sector into the sector buffer. -/
def writePart (fs : FATFS) (fp : FIL) (wbuff : List UInt8) : Round Writing WriteEnd :=
  let wcnt := fs.part fp.fptr wbuff.length
  let ofs := fp.fptr % fs.ssize
  let buf := fun i => if ofs ≤ i ∧ i < ofs + wcnt then wbuff.getD (i - ofs) 0 else fp.buf i
  .again (fs, { fp with buf := buf, faDirty := true, fptr := fp.fptr + wcnt }, wbuff.drop wcnt)

/-- Write at the beginning of a sector. -/
def writeSector (fs : FATFS) (fp : FIL) (wbuff : List UInt8) (csect : ℕ) :
    Round Writing WriteEnd :=
  let (done, fs, fp) := writeBack fs fp
  if ¬ done then .done (.abort .diskErr, fs, fp, wbuff)
  else
    let sect := fs.clust2sect fp.clust
    if sect = 0 then .done (.abort .intErr, fs, fp, wbuff)
    else
      let sect := sect + csect
      if wbuff.length / fs.ssize ≠ 0 then
        writeSectors fs fp wbuff sect (fs.clip csect wbuff.length)
      else
        let (done, fs, fp) := writeLoad fs fp sect
        if ¬ done then .done (.abort .diskErr, fs, fp, wbuff)
        else writePart fs { fp with dsect := sect } wbuff

/-- A round of `f_write`. -/
def writeRound (fuel : ℕ) : Writing → Option (Round Writing WriteEnd)
  | (fs, fp, wbuff) =>
    if wbuff = [] then some (.done (.go, fs, fp, wbuff))
    else if fp.fptr % fs.ssize = 0 then
      let csect := fs.csect fp.fptr
      (if csect = 0 then writeCluster fuel fs fp else some (.go, fs, fp)).map
        fun (stage, fs, fp) =>
          match stage with
          | .go => writeSector fs fp wbuff csect
          | stage => .done (stage, fs, fp, wbuff)
    else some (writePart fs fp wbuff)

/-- `f_write`: the result, and how many bytes have been written. -/
def fWrite (fuel : ℕ) (fs : FATFS) (fp : FIL) (buff : List UInt8) :
    Option (FResult × ℕ × FATFS × FIL) :=
  let res := validate fs
  if res ≠ .ok then some (res, 0, fs, fp)
  else if fp.err ≠ .ok then some (fp.err, 0, fs, fp)
  else if ¬ fp.faWrite then some (.denied, 0, fs, fp)
  else
    -- file size cannot reach 4GB
    let wbuff := if (fp.fptr + buff.length) % 2 ^ 32 < fp.fptr then [] else buff
    (loop (writeRound fuel) fuel (fs, fp, wbuff)).map fun (stage, fs, fp, rest) =>
      let bw := wbuff.length - rest.length
      match stage with
      | .abort res => (res, bw, fs, { fp with err := res })
      | _ =>
        let fp := if fp.fsize < fp.fptr then { fp with fsize := fp.fptr } else fp
        (.ok, bw, fs, { fp with faWritten := true })

/-! ## Seek -/

/-- The state of a seek: the cluster, and how far to go from it. -/
abbrev Seeking := FATFS × FIL × ℕ × ℕ

/-- A round of the loop that follows the clusters. -/
def seekRound (fuel : ℕ) : Seeking → Option (Round Seeking (Stage × Seeking))
  | (fs, fp, clst, ofs) =>
    let bcs := fs.csize * fs.ssize
    if bcs < ofs then
      (if fp.faWrite then createChain fuel fs clst else some (getFat fs clst)).map
        fun (clst, fs) =>
          -- when the disk gets full, clip the file size
          if fp.faWrite ∧ clst = 0 then .done (.go, fs, fp, clst, bcs)
          else if clst = diskError then .done (.abort .diskErr, fs, fp, clst, ofs)
          else if clst ≤ 1 ∨ fs.nFatent ≤ clst then .done (.abort .intErr, fs, fp, clst, ofs)
          else .again (fs, { fp with clust := clst, fptr := fp.fptr + bcs }, clst, ofs - bcs)
    else some (.done (.go, fs, fp, clst, ofs))

/-- Where a seek begins: at the current cluster or at the first one, which may be a new one. -/
def seekStart (fuel : ℕ) (fs : FATFS) (fp : FIL) (ifptr ofs : ℕ) : Option (Stage × Seeking) :=
  let bcs := fs.csize * fs.ssize
  if 0 < ifptr ∧ (ifptr - 1) / bcs ≤ (ofs - 1) / bcs then
    let fptr := (ifptr - 1) &&& ((2 ^ 32 - 1) ^^^ (bcs - 1))
    some (.go, fs, { fp with fptr := fptr }, fp.clust, ofs - fptr)
  else
    let clst := fp.sclust
    if clst = 0 then
      (createChain fuel fs 0).map fun (clst, fs) =>
        if clst = 1 then (.abort .intErr, fs, fp, clst, ofs)
        else if clst = diskError then (.abort .diskErr, fs, fp, clst, ofs)
        else (.go, fs, { fp with sclust := clst, clust := clst }, clst, ofs)
    else some (.go, fs, { fp with clust := clst }, clst, ofs)

/-- Go on to the cluster, and the sector that is to be in the sector buffer. -/
def seekSector (fuel : ℕ) (fs : FATFS) (fp : FIL) (clst ofs : ℕ) :
    Option (Stage × FATFS × FIL × ℕ) :=
  if clst ≠ 0 then
    (loop (seekRound fuel) fuel (fs, fp, clst, ofs)).map fun (stage, fs, fp, clst, ofs) =>
      match stage with
      | .go =>
        let fp := { fp with fptr := fp.fptr + ofs }
        if ofs % fs.ssize ≠ 0 then
          let nsect := fs.clust2sect clst
          if nsect = 0 then (.abort .intErr, fs, fp, nsect)
          else (.go, fs, fp, nsect + ofs / fs.ssize)
        else (.go, fs, fp, 0)
      | stage => (stage, fs, fp, 0)
  else some (.go, fs, fp, 0)

/-- Fill the sector buffer if needed, and set the size. -/
def seekFill (fs : FATFS) (fp : FIL) (nsect : ℕ) : Stage × FATFS × FIL :=
  let (done, fs, fp) :=
    if fp.fptr % fs.ssize ≠ 0 ∧ nsect ≠ fp.dsect then
      let (done, fs, fp) := readLoad fs fp nsect
      (done, fs, if done then { fp with dsect := nsect } else fp)
    else (true, fs, fp)
  if ¬ done then (.abort .diskErr, fs, fp)
  else (.go, fs, if fp.fsize < fp.fptr then { fp with fsize := fp.fptr, faWritten := true } else fp)

/-- `f_lseek` -/
def fLseek (fuel : ℕ) (fs : FATFS) (fp : FIL) (ofs : ℕ) : Option (FResult × FATFS × FIL) :=
  let res := validate fs
  if res ≠ .ok then some (res, fs, fp)
  else if fp.err ≠ .ok then some (fp.err, fs, fp)
  else
    let ofs := if fp.fsize < ofs ∧ ¬ fp.faWrite then fp.fsize else ofs
    let ifptr := fp.fptr
    let fp := { fp with fptr := 0 }
    ((if ofs ≠ 0 then seekStart fuel fs fp ifptr ofs else some (.go, fs, fp, 0, 0)).bind
      fun (stage, fs, fp, clst, ofs) =>
        match stage with
        | .go => (seekSector fuel fs fp clst ofs).map fun (stage, fs, fp, nsect) =>
          match stage with
          | .go => seekFill fs fp nsect
          | stage => (stage, fs, fp)
        | stage => some (stage, fs, fp)).map fun (stage, fs, fp) =>
          match stage with
          | .abort res => (res, fs, { fp with err := res })
          | _ => (.ok, fs, fp)

/-! ## Truncate -/

/-- Give the clusters behind the current position back. -/
def truncateChain (fuel : ℕ) (fs : FATFS) (fp : FIL) : Option (FResult × FATFS × FIL) :=
  if fp.fptr = 0 then
    (removeChain fuel fs fp.sclust).map fun (res, fs) => (res, fs, { fp with sclust := 0 })
  else
    let (ncl, fs) := getFat fs fp.clust
    if ncl = diskError then some (.diskErr, fs, fp)
    else if ncl = 1 then some (.intErr, fs, fp)
    else if ncl < fs.nFatent then
      let (res, fs) := putFat fs fp.clust lastLink
      if res = .ok then (removeChain fuel fs ncl).map fun (res, fs) => (res, fs, fp)
      else some (res, fs, fp)
    else some (.ok, fs, fp)

/-- `f_truncate` -/
def fTruncate (fuel : ℕ) (fs : FATFS) (fp : FIL) : Option (FResult × FATFS × FIL) :=
  let res := validate fs
  if res ≠ .ok then some (res, fs, fp)
  else if fp.err ≠ .ok then some (fp.err, fs, fp)
  else if ¬ fp.faWrite then some (.denied, fs, fp)
  else if fp.fptr < fp.fsize then
    (truncateChain fuel fs { fp with fsize := fp.fptr, faWritten := true }).map fun (res, fs, fp) =>
      let (res, fs, fp) :=
        if res = .ok then
          let (done, fs, fp) := writeBack fs fp
          (if done then res else .diskErr, fs, fp)
        else (res, fs, fp)
      (res, fs, if res ≠ .ok then { fp with err := res } else fp)
  else some (.ok, fs, fp)

/-! ## Sync -/

/-- `disk_ioctl` with `CTRL_SYNC`. -/
def Disk.sync (d : Disk) : Bool × Disk :=
  match d.answers 0 with
  | .ok => (true, d.next)
  | .error _ => (false, d.next)

/-- `sync_fs` -/
def syncFs (fs : FATFS) : FResult × FATFS :=
  let (res, fs) := syncWindow fs
  if res = .ok then
    let fs :=
      if fs.fsType = .fat32 ∧ fs.fsiDirty ∧ ¬ fs.fsiDisabled then
        let clean := { fs with win := fun _ => 0 }
        let info := ((clean.stWord 510 0xAA55).stDword 0 0x41615252).stDword 484 0x61417272
        let info := (info.stDword 488 fs.freeClust).stDword 492 fs.lastClust
        { fs with
          win := info.win
          winsect := fs.volbase + 1
          disk := (fs.disk.write (fun _ => info.win) (fs.volbase + 1) 1).2
          fsiDirty := false }
      else fs
    let (done, disk) := fs.disk.sync
    (if done then .ok else .diskErr, { fs with disk := disk })
  else (res, fs)

/-- The directory entry of a file. -/
def FATFS.stEntry (fs : FATFS) (fp : FIL) (tm : ℕ) : FATFS :=
  let dir := fp.dirPtr
  let fs := fs.poke (dir + 11) (fs.win (dir + 11) ||| (0x20 : UInt8))
  let fs := fs.stDword (dir + 28) fp.fsize
  let fs := (fs.stWord (dir + 26) fp.sclust).stWord (dir + 20) (fp.sclust / 2 ^ 16)
  (fs.stDword (dir + 22) tm).stWord (dir + 18) 0

/-- `f_sync`, at a time. -/
def fSync (fs : FATFS) (fp : FIL) (tm : ℕ) : FResult × FATFS × FIL :=
  let res := validate fs
  if res ≠ .ok then (res, fs, fp)
  else if fp.faWritten then
    let (done, fs, fp) := writeBack fs fp
    if ¬ done then (.diskErr, fs, fp)
    else
      let (res, fs) := moveWindow fs fp.dirSect
      if res = .ok then
        let fs := fs.stEntry fp tm
        let (res, fs) := syncFs fs
        (res, fs, { fp with faWritten := false })
      else (res, fs, fp)
  else (.ok, fs, fp)

end OlivePiccolo.FatFs
