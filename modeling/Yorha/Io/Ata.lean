import Yorha.Lib.Bytes
import Yorha.Lib.Exec

/-!
# The disk driver

`ata.c`: the functions that read and write sectors through the ports of a disk, for any device
behind these ports.  The waits end when the device is ready, so every loop takes fuel, and hangs
without it.

The index of the loops over the sectors has eight bits, and the number of sectors has 32.  From
256 sectors on the index never reaches the number, and the loop does not end, whatever the device
does (`sectorLoop_ne_ok`).
-/

namespace Yorha.Io

open Yorha.Lib

/-! ## Ports -/

/-- What is behind the ports, as the instructions see it. -/
structure PortDevice (σ : Type) where
  inb : Nat → σ → UInt8 × σ
  outb : Nat → UInt8 → σ → σ
  inw : Nat → σ → UInt16 × σ
  outw : Nat → UInt16 → σ → σ

/-- `SECTOR_BYTES`. -/
def sectorBytes : Nat := 512

/-- `SECTOR_WORDS`. -/
def sectorWords : Nat := 256

/-- `SECTORS_PER_BLOCK`. -/
def sectorsPerBlock : Nat := 8

/-- `ATA_REG_DATA`. -/
def ataRegData : Nat := 0x1F0

/-- `ATA_REG_ERROR`. -/
def ataRegError : Nat := 0x1F1

/-- `ATA_REG_SECCOUNT`. -/
def ataRegSeccount : Nat := 0x1F2

/-- `ATA_REG_LBA0`. -/
def ataRegLba0 : Nat := 0x1F3

/-- `ATA_REG_LBA1`. -/
def ataRegLba1 : Nat := 0x1F4

/-- `ATA_REG_LBA2`. -/
def ataRegLba2 : Nat := 0x1F5

/-- `ATA_REG_DRIVE_SELECT`. -/
def ataRegDriveSelect : Nat := 0x1F6

/-- `ATA_REG_COMMAND`. -/
def ataRegCommand : Nat := 0x1F7

/-- `ATA_REG_STATUS`. -/
def ataRegStatus : Nat := 0x1F7

/-- `ATA_CMD_READ_SECTORS`. -/
def ataCmdReadSectors : UInt8 := 0x20

/-- `ATA_CMD_WRITE_SECTORS`. -/
def ataCmdWriteSectors : UInt8 := 0x30

/-- `ATA_CMD_CACHE_FLUSH`. -/
def ataCmdCacheFlush : UInt8 := 0xE7

/-- `ATA_SR_BSY`. -/
def ataSrBsy : UInt8 := 0x80

/-- `ATA_SR_DRQ`. -/
def ataSrDrq : UInt8 := 0x08

/-! ## The code -/

section

variable {σ : Type} (io : PortDevice σ)

/-- Reads the status until it is as `done` says, at most `n` times. -/
def ataPoll (done : UInt8 → Bool) : Nat → σ → Except Stop σ
  | 0, _ => .error .hang
  | n + 1, d =>
      let (status, d) := io.inb ataRegStatus d
      if done status then .ok d else ataPoll done n d

/-- `ata_wait_ready`. -/
def ataWaitReady : Nat → σ → Except Stop σ := ataPoll io fun status ↦ status &&& ataSrBsy = 0

/-- The wait for `ATA_SR_DRQ`. -/
def ataWaitData : Nat → σ → Except Stop σ := ataPoll io fun status ↦ status &&& ataSrDrq ≠ 0

/-- `ata_cache_flush`. -/
def ataCacheFlush (fuel : Nat) (d : σ) : Except Stop σ := do
  let d ← ataWaitReady io fuel d
  ataWaitReady io fuel (io.outb ataRegCommand ataCmdCacheFlush d)

/-- The start of `ata_read_sectors` and of `ata_write_sectors`, up to the command. -/
def ataCommand (command : UInt8) (fuel lba sectorCount : Nat) (d : σ) : Except Stop σ := do
  let d ← ataWaitReady io fuel d
  let d := io.outb ataRegDriveSelect (UInt8.ofNat (0xE0 ||| (lba >>> 24 &&& 0x0F))) d
  let d := io.outb ataRegError 0x00 d
  let d := io.outb ataRegSeccount (UInt8.ofNat sectorCount) d
  let d := io.outb ataRegLba0 (UInt8.ofNat (lba &&& 0xFF)) d
  let d := io.outb ataRegLba1 (UInt8.ofNat (lba >>> 8 &&& 0xFF)) d
  let d := io.outb ataRegLba2 (UInt8.ofNat (lba >>> 16 &&& 0xFF)) d
  .ok (io.outb ataRegCommand command d)

/-- The bytes of a word, as they are stored. -/
def wordBytes (w : UInt16) : List UInt8 := [w.toUInt8, (w >>> 8).toUInt8]

/-- `rep_insw`. -/
def repInsw (port : Nat) : Nat → Nat → Bytes × σ → Bytes × σ
  | 0, _, s => s
  | count + 1, addr, (mem, d) =>
      let (w, d) := io.inw port d
      repInsw port count (addr + 2) (mem.splice addr (wordBytes w), d)

/-- The loop over the words of a sector in `ata_write_sectors`, over `n` more words. -/
def outWords (buffer : Bytes) (sector : Nat) : Nat → Nat → σ → σ
  | 0, _, d => d
  | n + 1, sw, d =>
      outWords buffer sector n (sw + 1) (io.outw ataRegData
        ((buffer (sector * sectorBytes + sw * 2 + 1)).toUInt16 <<< 8 |||
          (buffer (sector * sectorBytes + sw * 2)).toUInt16) d)

/-- The loops over the sectors, with what is done with each of them: at most `n` more rounds. -/
def sectorLoop (body : Nat → Bytes × σ → Bytes × σ) (fuel sectorCount : Nat) :
    Nat → UInt8 → Bytes × σ → Except Stop (Bytes × σ)
  | 0, _, _ => .error .hang
  | n + 1, sector, (buffer, d) =>
      if sector.toNat < sectorCount then do
        let d ← ataWaitData io fuel d
        sectorLoop body fuel sectorCount n (sector + 1) (body sector.toNat (buffer, d))
      else .ok (buffer, d)

/-- A sector that is read. -/
def readSector (sector : Nat) (s : Bytes × σ) : Bytes × σ :=
  repInsw io ataRegData sectorWords (sector * sectorBytes) s

/-- A sector that is written. -/
def writeSector (sector : Nat) (s : Bytes × σ) : Bytes × σ :=
  (s.1, outWords io s.1 sector sectorWords 0 s.2)

/-- `ata_read_sectors`. -/
def ataReadSectors (fuel lba sectorCount : Nat) (buffer : Bytes) (d : σ) :
    Except Stop (Bytes × σ) := do
  let d ← ataCommand io ataCmdReadSectors fuel lba sectorCount d
  let d ← ataWaitReady io fuel d
  sectorLoop io (readSector io) fuel sectorCount fuel 0 (buffer, d)

/-- `ata_write_sectors`. -/
def ataWriteSectors (fuel lba sectorCount : Nat) (buffer : Bytes) (d : σ) : Except Stop σ := do
  let d ← ataCommand io ataCmdWriteSectors fuel lba sectorCount d
  let (_, d) ← sectorLoop io (writeSector io) fuel sectorCount fuel 0 (buffer, d)
  ataCacheFlush io fuel d

/-- `ata_read_blocks`. -/
def ataReadBlocks (fuel blockNum : Nat) (buffer : Bytes) (count : Nat) (d : σ) :
    Except Stop (Bytes × σ) :=
  ataReadSectors io fuel (blockNum * sectorsPerBlock % 2 ^ 32) (sectorsPerBlock * count % 2 ^ 32)
    buffer d

/-- `ata_write_blocks`. -/
def ataWriteBlocks (fuel blockNum : Nat) (buffer : Bytes) (count : Nat) (d : σ) :
    Except Stop σ :=
  ataWriteSectors io fuel (blockNum * sectorsPerBlock % 2 ^ 32) (sectorsPerBlock * count % 2 ^ 32)
    buffer d

end

/-! ## The loops over the sectors -/

section

variable {σ : Type} {io : PortDevice σ} {body : Nat → Bytes × σ → Bytes × σ}
  {fuel sectorCount : Nat}

/-- **An index of eight bits** does not reach 256: the loop never ends. -/
theorem sectorLoop_ne_ok (h : 256 ≤ sectorCount) (n : Nat) (sector : UInt8) (s r : Bytes × σ) :
    sectorLoop io body fuel sectorCount n sector s ≠ .ok r := by
  induction n generalizing sector s with
  | zero => exact fun hloop ↦ nomatch hloop
  | succ n ih =>
      have hlt : sector.toNat < sectorCount := Nat.lt_of_lt_of_le sector.toNat_lt h
      rw [sectorLoop, if_pos hlt]
      intro hloop
      obtain ⟨d, -, hrest⟩ := bind_eq_ok.mp hloop
      exact ih _ _ hrest

/-- **The loop over fewer sectors ends**, if in every round the device asks for data: what a round
preserves holds behind the last one. -/
theorem sectorLoop_returns (io : PortDevice σ) (body : Nat → Bytes × σ → Bytes × σ)
    {I : Nat → Bytes × σ → Prop} {s : Bytes × σ} (hcount : sectorCount < 256)
    (hround : ∀ i buffer d, i < sectorCount → I i (buffer, d) →
      ∃ d', Returns (fun fuel ↦ ataWaitData io fuel d) d' ∧ I (i + 1) (body i (buffer, d')))
    (hs : I 0 s) : ∃ s', I sectorCount s' ∧
      Returns (fun fuel ↦ sectorLoop io body fuel sectorCount fuel 0 s) s' := by
  have hrest : ∀ (k i : Nat) (s : Bytes × σ), i + k = sectorCount → I i s →
      ∃ s' m, I sectorCount s' ∧ ∀ fuel ≥ m, ∀ n ≥ m,
        sectorLoop io body fuel sectorCount n (UInt8.ofNat i) s = .ok s' := by
    intro k
    induction k with
    | zero =>
        rintro i ⟨buffer, d⟩ rfl hI
        refine ⟨(buffer, d), 1, hI, fun fuel _ n hn ↦ ?_⟩
        obtain ⟨n, rfl⟩ : ∃ m, n = m + 1 := ⟨n - 1, by omega⟩
        have hend : ¬ (UInt8.ofNat i).toNat < i := by
          rw [UInt8.toNat_ofNat']
          omega
        rw [Nat.add_zero, sectorLoop, if_neg hend]
    | succ k ih =>
        rintro i ⟨buffer, d⟩ hi hI
        have hindex : (UInt8.ofNat i).toNat = i := by
          rw [UInt8.toNat_ofNat']
          omega
        have hnext : UInt8.ofNat i + 1 = UInt8.ofNat (i + 1) := (UInt8.ofNat_add i 1).symm
        obtain ⟨d', ⟨m₁, hwait⟩, hI'⟩ := hround i buffer d (by omega) hI
        obtain ⟨s', m₂, hend, hloop⟩ := ih (i + 1) _ (by omega) hI'
        refine ⟨s', max m₁ m₂ + 1, hend, fun fuel hfuel n hn ↦ ?_⟩
        obtain ⟨n, rfl⟩ : ∃ m, n = m + 1 := ⟨n - 1, by omega⟩
        have hwait' : ataWaitData io fuel d = .ok d' := hwait fuel (by omega)
        rw [sectorLoop, hindex, if_pos (by omega), hwait', ok_bind, hnext]
        exact hloop fuel (by omega) n (by omega)
  obtain ⟨s', m, hend, hloop⟩ := hrest sectorCount 0 s (Nat.zero_add _) hs
  exact ⟨s', hend, m, fun fuel hfuel ↦ hloop fuel hfuel fuel hfuel⟩

end

/-! ## Counting the words -/

section

variable {σ : Type} {io : PortDevice σ} {fuel lba sectorCount k : Nat} {buffer : Bytes} {d d' : σ}

/-- The device, with the number of words that went through its data port. -/
def counted (io : PortDevice σ) : PortDevice (Nat × σ) where
  inb port s := ((io.inb port s.2).1, s.1, (io.inb port s.2).2)
  outb port value s := (s.1, io.outb port value s.2)
  inw port s := ((io.inw port s.2).1, s.1 + 1, (io.inw port s.2).2)
  outw port value s := (s.1 + 1, io.outw port value s.2)

theorem ataPoll_succ (done : UInt8 → Bool) (n : Nat) (d : σ) : ataPoll io done (n + 1) d =
    if done (io.inb ataRegStatus d).1 then .ok (io.inb ataRegStatus d).2
    else ataPoll io done n (io.inb ataRegStatus d).2 := rfl

theorem ataPoll_counted {done : UInt8 → Bool} {n : Nat} (h : ataPoll io done n d = .ok d') :
    ataPoll (counted io) done n (k, d) = .ok (k, d') := by
  induction n generalizing d with
  | zero => cases h
  | succ n ih =>
      have hinb : (counted io).inb ataRegStatus (k, d) =
          ((io.inb ataRegStatus d).1, k, (io.inb ataRegStatus d).2) := rfl
      rw [ataPoll_succ] at h ⊢
      rw [hinb]
      by_cases hdone : done (io.inb ataRegStatus d).1 = true
      · rw [if_pos hdone] at h ⊢
        cases h
        rfl
      · rw [if_neg hdone] at h ⊢
        exact ih h

theorem repInsw_counted (port n addr k : Nat) (s : Bytes × σ) :
    repInsw (counted io) port n addr (s.1, k, s.2) =
      ((repInsw io port n addr s).1, k + n, (repInsw io port n addr s).2) := by
  induction n generalizing addr k s with
  | zero => rfl
  | succ n ih =>
      obtain ⟨mem, d⟩ := s
      have hrest := ih (addr + 2) (k + 1)
        (mem.splice addr (wordBytes (io.inw port d).1), (io.inw port d).2)
      rw [Nat.add_assoc k, Nat.add_comm 1 n] at hrest
      exact hrest

theorem outWords_counted (buffer : Bytes) (sector n sw k : Nat) (d : σ) :
    outWords (counted io) buffer sector n sw (k, d) =
      (k + n, outWords io buffer sector n sw d) := by
  induction n generalizing sw k d with
  | zero => rfl
  | succ n ih =>
      rw [outWords, outWords]
      have hrest := ih (sw + 1) (k + 1) (io.outw ataRegData
        ((buffer (sector * sectorBytes + sw * 2 + 1)).toUInt16 <<< 8 |||
          (buffer (sector * sectorBytes + sw * 2)).toUInt16) d)
      rw [Nat.add_assoc k, Nat.add_comm 1 n] at hrest
      exact hrest

theorem readSector_counted (i : Nat) (buffer : Bytes) (k : Nat) (d : σ) :
    readSector (counted io) i (buffer, k, d) = ((readSector io i (buffer, d)).1, k + sectorWords,
      (readSector io i (buffer, d)).2) := by
  exact repInsw_counted ataRegData sectorWords (i * sectorBytes) k (buffer, d)

theorem writeSector_counted (i : Nat) (buffer : Bytes) (k : Nat) (d : σ) :
    writeSector (counted io) i (buffer, k, d) = ((writeSector io i (buffer, d)).1,
      k + sectorWords, (writeSector io i (buffer, d)).2) := by
  simp only [writeSector, outWords_counted]

/-- Each round of a loop that ends moves the words of a sector. -/
theorem sectorLoop_counted (body : Nat → Bytes × σ → Bytes × σ)
    (body' : Nat → Bytes × Nat × σ → Bytes × Nat × σ) {n : Nat} {sector : UInt8}
    {buffer' : Bytes} (hcount : sectorCount < 256)
    (hbody : ∀ i buffer k d, body' i (buffer, k, d) =
      ((body i (buffer, d)).1, k + sectorWords, (body i (buffer, d)).2))
    (hsector : sector.toNat ≤ sectorCount)
    (h : sectorLoop io body fuel sectorCount n sector (buffer, d) = .ok (buffer', d')) :
    sectorLoop (counted io) body' fuel sectorCount n sector (buffer, k, d) =
      .ok (buffer', k + sectorWords * (sectorCount - sector.toNat), d') := by
  induction n generalizing sector buffer d k with
  | zero => cases h
  | succ n ih =>
      rw [sectorLoop] at h ⊢
      by_cases hlt : sector.toNat < sectorCount
      · rw [if_pos hlt] at h ⊢
        obtain ⟨d₁, hwait, hrest⟩ := bind_eq_ok.mp h
        have hnext : (sector + 1).toNat = sector.toNat + 1 := by
          rw [UInt8.toNat_add, UInt8.toNat_one]
          omega
        have hpoll : ataWaitData (counted io) fuel (k, d) = .ok (k, d₁) := ataPoll_counted hwait
        have hleft : k + sectorWords + sectorWords * (sectorCount - (sector + 1).toNat) =
            k + sectorWords * (sectorCount - sector.toNat) := by
          rw [hnext, sectorWords]
          omega
        rw [hpoll, ok_bind, hbody, ih (by omega) hrest, hleft]
      · rw [if_neg hlt] at h ⊢
        cases h
        rw [Nat.sub_eq_zero_of_le (Nat.le_of_not_lt hlt), Nat.mul_zero, Nat.add_zero]

theorem ataCommand_counted {command : UInt8}
    (h : ataCommand io command fuel lba sectorCount d = .ok d') :
    ataCommand (counted io) command fuel lba sectorCount (k, d) = .ok (k, d') := by
  obtain ⟨d₁, hwait, h⟩ := bind_eq_ok.mp h
  have hpoll : ataWaitReady (counted io) fuel (k, d) = .ok (k, d₁) := ataPoll_counted hwait
  cases h
  rw [ataCommand, hpoll]
  rfl

theorem ataReadSectors_counted {buffer' : Bytes} (hcount : sectorCount < 256)
    (h : ataReadSectors io fuel lba sectorCount buffer d = .ok (buffer', d')) :
    ataReadSectors (counted io) fuel lba sectorCount buffer (k, d) =
      .ok (buffer', k + sectorWords * sectorCount, d') := by
  obtain ⟨d₁, hcommand, h⟩ := bind_eq_ok.mp h
  obtain ⟨d₂, hwait, h⟩ := bind_eq_ok.mp h
  have hpoll : ataWaitReady (counted io) fuel (k, d₁) = .ok (k, d₂) := ataPoll_counted hwait
  have hloop := sectorLoop_counted (k := k) (readSector io) (readSector (counted io)) hcount
    readSector_counted (Nat.zero_le _) h
  rw [ataReadSectors, ataCommand_counted hcommand, ok_bind, hpoll, ok_bind]
  exact hloop

theorem ataWriteSectors_counted (hcount : sectorCount < 256)
    (h : ataWriteSectors io fuel lba sectorCount buffer d = .ok d') :
    ataWriteSectors (counted io) fuel lba sectorCount buffer (k, d) =
      .ok (k + sectorWords * sectorCount, d') := by
  obtain ⟨d₁, hcommand, h⟩ := bind_eq_ok.mp h
  obtain ⟨⟨buffer', d₂⟩, hrounds, h⟩ := bind_eq_ok.mp h
  obtain ⟨d₃, hwait, h⟩ := bind_eq_ok.mp h
  have hloop := sectorLoop_counted (k := k) (writeSector io) (writeSector (counted io)) hcount
    writeSector_counted (Nat.zero_le _) hrounds
  have hpoll : ∀ k, ataWaitReady (counted io) fuel (k, d₂) = .ok (k, d₃) :=
    fun k ↦ ataPoll_counted hwait
  have hlast : ∀ k, ataWaitReady (counted io) fuel
      (k, io.outb ataRegCommand ataCmdCacheFlush d₃) = .ok (k, d') :=
    fun k ↦ ataPoll_counted h
  rw [ataWriteSectors, ataCommand_counted hcommand, ok_bind, hloop, ok_bind]
  simp only [ataCacheFlush, hpoll, ok_bind]
  exact hlast _

end

/-! ## Blocks -/

section

variable {σ : Type} {io : PortDevice σ} {lba blockNum sectorCount count : Nat} {buffer : Bytes}
  {d : σ}

/-- `ata_read_blocks` moves the words of eight sectors for each block, and returns. -/
def ReadsExactly (io : PortDevice σ) (d : σ) (blockNum : Nat) (buffer : Bytes) (count : Nat) :
    Prop :=
  ∃ buffer' d', Returns (fun fuel ↦ ataReadBlocks (counted io) fuel blockNum buffer count (0, d))
    (buffer', sectorWords * (sectorsPerBlock * count), d')

/-- So does `ata_write_blocks`. -/
def WritesExactly (io : PortDevice σ) (d : σ) (blockNum : Nat) (buffer : Bytes) (count : Nat) :
    Prop :=
  ∃ d', Returns (fun fuel ↦ ataWriteBlocks (counted io) fuel blockNum buffer count (0, d))
    (sectorWords * (sectorsPerBlock * count), d')

/-- Whatever is asked of the device, in whatever state, both functions return as long as there
are fewer than 256 sectors. -/
structure Serves (io : PortDevice σ) : Prop where
  read : ∀ d lba sectorCount buffer, sectorCount < 256 →
    ∃ r, Returns (fun fuel ↦ ataReadSectors io fuel lba sectorCount buffer d) r
  write : ∀ d lba sectorCount buffer, sectorCount < 256 →
    ∃ r, Returns (fun fuel ↦ ataWriteSectors io fuel lba sectorCount buffer d) r

theorem ataReadSectors_ne_ok (h : 256 ≤ sectorCount) (fuel : Nat) (r : Bytes × σ) :
    ataReadSectors io fuel lba sectorCount buffer d ≠ .ok r := by
  intro hread
  obtain ⟨d₁, -, hread⟩ := bind_eq_ok.mp hread
  obtain ⟨d₂, -, hloop⟩ := bind_eq_ok.mp hread
  exact sectorLoop_ne_ok h _ _ _ _ hloop

theorem ataWriteSectors_ne_ok (h : 256 ≤ sectorCount) (fuel : Nat) (r : σ) :
    ataWriteSectors io fuel lba sectorCount buffer d ≠ .ok r := by
  intro hwrite
  obtain ⟨d₁, -, hwrite⟩ := bind_eq_ok.mp hwrite
  obtain ⟨s, hloop, -⟩ := bind_eq_ok.mp hwrite
  exact sectorLoop_ne_ok h _ _ _ _ hloop

/-- The words of fewer than 256 sectors are those of so many blocks. -/
theorem lt_of_words_eq (hfew : sectorsPerBlock * count % 2 ^ 32 < 256)
    (h : 0 + sectorWords * (sectorsPerBlock * count % 2 ^ 32) =
      sectorWords * (sectorsPerBlock * count)) : count < 32 := by
  unfold sectorWords sectorsPerBlock at *
  omega

theorem sectors_of_lt (h : count < 32) :
    sectorsPerBlock * count % 2 ^ 32 = sectorsPerBlock * count ∧ sectorsPerBlock * count < 256 := by
  unfold sectorsPerBlock
  omega

theorem Serves.readsExactly_iff (h : Serves io) :
    ReadsExactly io d blockNum buffer count ↔ count < 32 := by
  constructor
  · rintro ⟨buffer', d', hreturns⟩
    by_cases hfew : sectorsPerBlock * count % 2 ^ 32 < 256
    · obtain ⟨⟨buffer'', d''⟩, hread⟩ := h.read d (blockNum * sectorsPerBlock % 2 ^ 32) _ buffer hfew
      have hcounted := hread.imp fun fuel hok ↦ ataReadSectors_counted (k := 0) hfew hok
      have heq := hcounted.unique hreturns
      exact lt_of_words_eq hfew (congrArg (fun r ↦ r.2.1) heq)
    · obtain ⟨n, hok⟩ := hreturns
      exact absurd (hok n (Nat.le_refl n)) (ataReadSectors_ne_ok (Nat.le_of_not_lt hfew) _ _)
  · intro hcount
    obtain ⟨hmod, hfew⟩ := sectors_of_lt hcount
    obtain ⟨⟨buffer', d'⟩, hread⟩ := h.read d (blockNum * sectorsPerBlock % 2 ^ 32) _ buffer hfew
    refine ⟨buffer', d', hread.imp fun fuel hok ↦ ?_⟩
    have hcounted := ataReadSectors_counted (k := 0) hfew hok
    rw [Nat.zero_add] at hcounted
    rwa [ataReadBlocks, hmod]

theorem Serves.writesExactly_iff (h : Serves io) :
    WritesExactly io d blockNum buffer count ↔ count < 32 := by
  constructor
  · rintro ⟨d', hreturns⟩
    by_cases hfew : sectorsPerBlock * count % 2 ^ 32 < 256
    · obtain ⟨d'', hwrite⟩ := h.write d (blockNum * sectorsPerBlock % 2 ^ 32) _ buffer hfew
      have hcounted := hwrite.imp fun fuel hok ↦ ataWriteSectors_counted (k := 0) hfew hok
      have heq := hcounted.unique hreturns
      exact lt_of_words_eq hfew (congrArg Prod.fst heq)
    · obtain ⟨n, hok⟩ := hreturns
      exact absurd (hok n (Nat.le_refl n)) (ataWriteSectors_ne_ok (Nat.le_of_not_lt hfew) _ _)
  · intro hcount
    obtain ⟨hmod, hfew⟩ := sectors_of_lt hcount
    obtain ⟨d', hwrite⟩ := h.write d (blockNum * sectorsPerBlock % 2 ^ 32) _ buffer hfew
    refine ⟨d', hwrite.imp fun fuel hok ↦ ?_⟩
    have hcounted := ataWriteSectors_counted (k := 0) hfew hok
    rw [Nat.zero_add] at hcounted
    rwa [ataWriteBlocks, hmod]

/-! ### Devices that become ready -/

/-- The device after `n` reads of its status. -/
def polled (io : PortDevice σ) : Nat → σ → σ
  | 0, d => d
  | n + 1, d => polled io n (io.inb ataRegStatus d).2

/-- In every state, after some reads of the status the device is not busy, and after some it asks
for data. -/
structure AlwaysReady (io : PortDevice σ) : Prop where
  ready : ∀ d, ∃ n, (io.inb ataRegStatus (polled io n d)).1 &&& ataSrBsy = 0
  data : ∀ d, ∃ n, (io.inb ataRegStatus (polled io n d)).1 &&& ataSrDrq ≠ 0

/-- A wait for a status that comes. -/
theorem ataPoll_returns {done : UInt8 → Bool} {n : Nat}
    (h : done (io.inb ataRegStatus (polled io n d)).1 = true) :
    ∃ d', Returns (fun fuel ↦ ataPoll io done fuel d) d' := by
  have hready : ∀ d, done (io.inb ataRegStatus d).1 = true →
      Returns (fun fuel ↦ ataPoll io done fuel d) (io.inb ataRegStatus d).2 := by
    intro d hdone
    refine Returns.succ ⟨0, fun fuel _ ↦ ?_⟩
    exact (ataPoll_succ done fuel d).trans (if_pos hdone)
  induction n generalizing d with
  | zero => exact ⟨_, hready d h⟩
  | succ n ih =>
      by_cases hdone : done (io.inb ataRegStatus d).1 = true
      · exact ⟨_, hready d hdone⟩
      · obtain ⟨d', hpoll⟩ := ih (d := (io.inb ataRegStatus d).2) h
        refine ⟨d', Returns.succ (hpoll.imp fun fuel hok ↦ ?_)⟩
        exact (ataPoll_succ done fuel d).trans ((if_neg hdone).trans hok)

theorem AlwaysReady.waitReady (h : AlwaysReady io) (d : σ) :
    ∃ d', Returns (fun fuel ↦ ataWaitReady io fuel d) d' := by
  obtain ⟨n, hn⟩ := h.ready d
  exact ataPoll_returns (decide_eq_true hn)

theorem AlwaysReady.waitData (h : AlwaysReady io) (d : σ) :
    ∃ d', Returns (fun fuel ↦ ataWaitData io fuel d) d' := by
  obtain ⟨n, hn⟩ := h.data d
  exact ataPoll_returns (decide_eq_true hn)

theorem AlwaysReady.command (h : AlwaysReady io) (command : UInt8) (lba sectorCount : Nat)
    (d : σ) : ∃ d', Returns (fun fuel ↦ ataCommand io command fuel lba sectorCount d) d' := by
  obtain ⟨d₁, hwait⟩ := h.waitReady d
  exact ⟨_, hwait.bind (returns_ok _)⟩

/-- **A device that becomes ready serves** fewer than 256 sectors. -/
theorem AlwaysReady.serves (h : AlwaysReady io) : Serves io where
  read := by
    intro d lba sectorCount buffer hcount
    obtain ⟨d₁, hcommand⟩ := h.command ataCmdReadSectors lba sectorCount d
    obtain ⟨d₂, hwait⟩ := h.waitReady d₁
    obtain ⟨s', -, hloop⟩ := sectorLoop_returns io (readSector io)
      (I := fun _ _ ↦ True) (s := (buffer, d₂)) hcount
      (fun i buffer d _ _ ↦ (h.waitData d).imp fun _ hd ↦ ⟨hd, trivial⟩) trivial
    exact ⟨s', hcommand.bind (hwait.bind hloop)⟩
  write := by
    intro d lba sectorCount buffer hcount
    obtain ⟨d₁, hcommand⟩ := h.command ataCmdWriteSectors lba sectorCount d
    obtain ⟨⟨buffer', d₂⟩, -, hloop⟩ := sectorLoop_returns io (writeSector io)
      (I := fun _ _ ↦ True) (s := (buffer, d₁)) hcount
      (fun i buffer d _ _ ↦ (h.waitData d).imp fun _ hd ↦ ⟨hd, trivial⟩) trivial
    obtain ⟨d₃, hwait⟩ := h.waitReady d₂
    obtain ⟨d₄, hflush⟩ := h.waitReady (io.outb ataRegCommand ataCmdCacheFlush d₃)
    exact ⟨d₄, hcommand.bind (hloop.bind (hwait.bind hflush))⟩

end

end Yorha.Io
