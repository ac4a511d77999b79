import Mathlib.Data.Nat.Bitwise
import Yorha.Fs.Mount
import Yorha.Io.Ata

/-!
# A disk

The device that `ata.c` is written for: after a command it transfers as many sectors as its
register says, from the address in its registers on, and before each of them it is busy for as
long as it likes.

On such a disk what is written is read back (`write_read_sectors`).  The functions for blocks do
what they are asked to for fewer than 32 of them (`blocks_iff`), and then the blocks are what the
file system takes them for (`ataReadBlocks_lba28`, `ataWriteBlocks_lba28`).
-/

namespace Yorha.Io

open Yorha.Lib

/-! ## The device -/

/-- The registers of a disk, its sectors, and the transfer that it is in. -/
structure Lba28 where
  sectors : Nat → Bytes
  seccount : UInt8
  lba0 : UInt8
  lba1 : UInt8
  lba2 : UInt8
  driveSelect : UInt8
  writing : Bool
  /-- The sector that is transferred. -/
  address : Nat
  /-- The number of sectors still to be transferred. -/
  remaining : Nat
  /-- The next word of the sector. -/
  word : Nat
  /-- For so many reads of the status, the disk is busy. -/
  busy : Nat
  /-- How long it will be busy each time. -/
  latency : Nat → Nat
  /-- How often it was busy. -/
  operations : Nat

namespace Lba28

/-- The disk is busy for a while. -/
def work (d : Lba28) : Lba28 :=
  { d with busy := d.latency d.operations, operations := d.operations + 1 }

/-- The disk is no longer busy. -/
def ready (d : Lba28) : Lba28 := { d with busy := 0 }

/-- The address in the registers: 28 bits. -/
def lba (d : Lba28) : Nat :=
  d.driveSelect.toNat % 16 * 2 ^ 24 + d.lba2.toNat * 2 ^ 16 + d.lba1.toNat * 2 ^ 8 + d.lba0.toNat

/-- The number of sectors in the registers. -/
def requested (d : Lba28) : Nat := if d.seccount = 0 then 256 else d.seccount.toNat

/-- A transfer begins. -/
def start (writing : Bool) (d : Lba28) : Lba28 :=
  work { d with writing := writing, address := d.lba, remaining := d.requested, word := 0 }

/-- A command.  Of those that transfer nothing, there is the one that empties the cache. -/
def execute (command : UInt8) (d : Lba28) : Lba28 :=
  if command = ataCmdReadSectors then d.start false
  else if command = ataCmdWriteSectors then d.start true
  else work { d with remaining := 0 }

/-- The status of a disk that is not busy: it asks for data during a transfer. -/
def status (d : Lba28) : UInt8 := if d.remaining = 0 then 0x40 else 0x48

/-- The next sector, behind the last word of one. -/
def nextSector (d : Lba28) : Lba28 :=
  work { d with address := d.address + 1, remaining := d.remaining - 1, word := 0 }

/-- A word was transferred. -/
def advance (d : Lba28) : Lba28 :=
  if d.word + 1 = sectorWords then d.nextSector else { d with word := d.word + 1 }

/-- A word can be transferred in this direction. -/
def Moves (d : Lba28) (writing : Bool) : Prop :=
  d.busy = 0 ∧ d.remaining ≠ 0 ∧ d.writing = writing

instance (d : Lba28) (writing : Bool) : Decidable (d.Moves writing) :=
  inferInstanceAs (Decidable (_ ∧ _))

/-- A word of memory, low byte first. -/
def wordOf (m : Bytes) (word : Nat) : UInt16 :=
  (m (2 * word + 1)).toUInt16 <<< 8 ||| (m (2 * word)).toUInt16

/-- A word goes to the sector. -/
def store (d : Lba28) (w : UInt16) : Lba28 :=
  { d with
    sectors := Function.update d.sectors d.address
      ((d.sectors d.address).splice (2 * d.word) (wordBytes w)) }

end Lba28

/-- The disk behind its ports. -/
def lba28 : PortDevice Lba28 where
  inb port d :=
    if port = ataRegStatus then
      if d.busy = 0 then (d.status, d) else (ataSrBsy, { d with busy := d.busy - 1 })
    else (0xFF, d)
  outb port value d :=
    if port = ataRegSeccount then { d with seccount := value }
    else if port = ataRegLba0 then { d with lba0 := value }
    else if port = ataRegLba1 then { d with lba1 := value }
    else if port = ataRegLba2 then { d with lba2 := value }
    else if port = ataRegDriveSelect then { d with driveSelect := value }
    else if port = ataRegCommand then d.execute value
    else d
  inw port d :=
    if port = ataRegData ∧ d.Moves false then
      (Lba28.wordOf (d.sectors d.address) d.word, d.advance)
    else (0xFFFF, d)
  outw port value d :=
    if port = ataRegData ∧ d.Moves true then (d.store value).advance else d

/-! ## Waiting -/

section

variable {d : Lba28}

theorem inb_status_busy (h : d.busy ≠ 0) :
    lba28.inb ataRegStatus d = (ataSrBsy, { d with busy := d.busy - 1 }) := by
  rw [lba28]
  simp only [↓reduceIte, if_neg h]

theorem inb_status_ready (h : d.busy = 0) : lba28.inb ataRegStatus d = (d.status, d) := by
  rw [lba28]
  simp only [↓reduceIte, if_pos h]

/-- A wait for something that the disk says as soon as it is not busy. -/
theorem ataPoll_lba28 {done : UInt8 → Bool} (hbusy : done ataSrBsy = false)
    (hdone : done d.status = true) :
    Returns (fun fuel ↦ ataPoll lba28 done fuel d) d.ready := by
  obtain ⟨n, hn⟩ : ∃ n, d.busy = n := ⟨_, rfl⟩
  induction n generalizing d with
  | zero =>
      refine Returns.succ ⟨0, fun fuel _ ↦ ?_⟩
      change ataPoll lba28 done (fuel + 1) d = _
      rw [ataPoll_succ, inb_status_ready hn, if_pos hdone, Lba28.ready, ← hn]
  | succ n ih =>
      have hbusy' : ({ d with busy := d.busy - 1 } : Lba28).busy = n := by
        change d.busy - 1 = n
        rw [hn, Nat.add_sub_cancel]
      refine Returns.succ ((ih (d := { d with busy := d.busy - 1 }) hdone hbusy').imp
        fun fuel hok ↦ ?_)
      have hne : ¬ done ataSrBsy = true := by
        rw [hbusy]
        exact Bool.false_ne_true
      rw [ataPoll_succ, inb_status_busy (by omega), if_neg hne]
      exact hok

theorem status_eq (d : Lba28) : d.status = 0x40 ∨ d.status = 0x48 := by
  rw [Lba28.status]
  split
  · exact .inl rfl
  · exact .inr rfl

theorem ataWaitReady_lba28 (d : Lba28) :
    Returns (fun fuel ↦ ataWaitReady lba28 fuel d) d.ready := by
  refine ataPoll_lba28 (by decide) ?_
  rcases status_eq d with h | h
  · rw [h]
    decide
  · rw [h]
    decide

/-- During a transfer, the disk asks for data. -/
theorem ataWaitData_lba28 (h : d.remaining ≠ 0) :
    Returns (fun fuel ↦ ataWaitData lba28 fuel d) d.ready := by
  refine ataPoll_lba28 (by decide) ?_
  rw [Lba28.status, if_neg h]
  decide

end

/-! ## Words -/

/-- The bytes of a word made of two bytes. -/
theorem wordBytes_or (low high : UInt8) :
    wordBytes (high.toUInt16 <<< 8 ||| low.toUInt16) = [low, high] := by
  have hlow := low.toNat_lt
  have hhigh := high.toNat_lt
  have hword : (high.toUInt16 <<< 8 ||| low.toUInt16).toNat = high.toNat * 2 ^ 8 + low.toNat := by
    have hshift : high.toNat <<< 8 < 2 ^ 16 := by
      rw [Nat.shiftLeft_eq]
      omega
    rw [UInt16.toNat_or, UInt16.toNat_shiftLeft, UInt8.toNat_toUInt16, UInt8.toNat_toUInt16]
    change high.toNat <<< 8 % 2 ^ 16 ||| low.toNat = _
    rw [Nat.mod_eq_of_lt hshift, ← Nat.shiftLeft_add_eq_or_of_lt hlow, Nat.shiftLeft_eq]
  have hbytes : (high.toUInt16 <<< 8 ||| low.toUInt16).toUInt8 = low := by
    rw [← UInt8.toNat_inj, UInt16.toNat_toUInt8, hword]
    omega
  have hnext : ((high.toUInt16 <<< 8 ||| low.toUInt16) >>> 8).toUInt8 = high := by
    rw [← UInt8.toNat_inj, UInt16.toNat_toUInt8, UInt16.toNat_shiftRight, hword]
    change (high.toNat * 2 ^ 8 + low.toNat) >>> 8 % 2 ^ 8 = _
    rw [Nat.shiftRight_eq_div_pow]
    omega
  rw [wordBytes, hbytes, hnext]

/-- The next word of memory. -/
theorem take_drop_word (m : Bytes) (word n : Nat) :
    (m.drop (2 * word)).take (2 * (n + 1)) =
      wordBytes (Lba28.wordOf m word) ++ (m.drop (2 * (word + 1))).take (2 * n) := by
  rw [Lba28.wordOf, wordBytes_or, Nat.mul_add, Nat.add_comm (2 * n), Bytes.take_add,
    Bytes.drop_drop]
  rfl

section

variable {d : Lba28}

theorem inw_data (h : d.Moves false) :
    lba28.inw ataRegData d = (Lba28.wordOf (d.sectors d.address) d.word, d.advance) := by
  rw [lba28]
  exact if_pos ⟨rfl, h⟩

theorem outw_data (h : d.Moves true) (w : UInt16) :
    lba28.outw ataRegData w d = (d.store w).advance := by
  rw [lba28]
  exact if_pos ⟨rfl, h⟩

theorem advance_of_lt (h : d.word + 1 < sectorWords) :
    d.advance = { d with word := d.word + 1 } := if_neg (Nat.ne_of_lt h)

theorem advance_of_eq (h : d.word + 1 = sectorWords) : d.advance = d.nextSector := if_pos h

/-- **The rest of a sector is read**: its bytes from the next word on. -/
theorem repInsw_lba28 {n : Nat} (hmoves : d.Moves false) (hn : d.word + (n + 1) = sectorWords)
    (mem : Bytes) (addr : Nat) : repInsw lba28 ataRegData (n + 1) addr (mem, d) =
      (mem.splice addr (((d.sectors d.address).drop (2 * d.word)).take (2 * (n + 1))),
        d.nextSector) := by
  induction n generalizing d mem addr with
  | zero =>
      have hnil : ((d.sectors d.address).drop (2 * (d.word + 1))).take (2 * 0) = [] := rfl
      rw [repInsw, inw_data hmoves, take_drop_word, advance_of_eq hn, hnil, List.append_nil]
      rfl
  | succ n ih =>
      have hlt : d.word + 1 < sectorWords := by omega
      have hnext : d.word + 1 + (n + 1) = sectorWords := by omega
      have hrest := ih (d := { d with word := d.word + 1 }) hmoves hnext
        (mem.splice addr (wordBytes (Lba28.wordOf (d.sectors d.address) d.word))) (addr + 2)
      have hsplice := Bytes.splice_append mem addr
        (wordBytes (Lba28.wordOf (d.sectors d.address) d.word))
        (((d.sectors d.address).drop (2 * (d.word + 1))).take (2 * (n + 1)))
      rw [repInsw, inw_data hmoves, take_drop_word, advance_of_lt hlt, ← hsplice]
      exact hrest

/-- What the disk holds when `bytes` were written to the rest of a sector. -/
def Lba28.stored (d : Lba28) (bytes : List UInt8) : Lba28 :=
  { d with
    sectors := Function.update d.sectors d.address
      ((d.sectors d.address).splice (2 * d.word) bytes) }

/-- **The rest of a sector is written**, from the next word of the buffer on. -/
theorem outWords_lba28 {n : Nat} (hmoves : d.Moves true) (hn : d.word + (n + 1) = sectorWords)
    (buffer : Bytes) (sector : Nat) : outWords lba28 buffer sector (n + 1) d.word d =
      (d.stored (((buffer.drop (sector * sectorBytes)).drop (2 * d.word)).take
        (2 * (n + 1)))).nextSector := by
  have hbyte : ∀ word, (buffer (sector * sectorBytes + word * 2 + 1)).toUInt16 <<< 8 |||
      (buffer (sector * sectorBytes + word * 2)).toUInt16 =
        Lba28.wordOf (buffer.drop (sector * sectorBytes)) word := by
    intro word
    rw [Lba28.wordOf, Bytes.drop_apply, Bytes.drop_apply, Nat.mul_comm 2 word, Nat.add_assoc]
  induction n generalizing d with
  | zero =>
      have hnil : ((buffer.drop (sector * sectorBytes)).drop (2 * (d.word + 1))).take (2 * 0) =
          [] := rfl
      rw [outWords, outWords, hbyte, outw_data hmoves, take_drop_word, hnil, List.append_nil]
      exact advance_of_eq hn
  | succ n ih =>
      have hlt : d.word + 1 < sectorWords := by omega
      have hnext : d.word + 1 + (n + 1) = sectorWords := by omega
      rw [outWords, hbyte, outw_data hmoves, take_drop_word]
      generalize Lba28.wordOf (buffer.drop (sector * sectorBytes)) d.word = w at *
      have hadvance : (d.store w).advance = { d.store w with word := d.word + 1 } :=
        advance_of_lt hlt
      have hrest := ih (d := { d.store w with word := d.word + 1 }) hmoves hnext
      rw [hadvance]
      refine hrest.trans ?_
      have hsplice := Bytes.splice_append (d.sectors d.address) (2 * d.word) (wordBytes w)
        (((buffer.drop (sector * sectorBytes)).drop (2 * (d.word + 1))).take (2 * (n + 1)))
      simp only [Lba28.nextSector, Lba28.work, Lba28.stored, Lba28.store, Function.update_self,
        Function.update_idem, ← hsplice]
      rfl

end

/-! ## Sectors -/

/-- The bytes of the disk from a sector on. -/
def diskBytes (sectors : Nat → Bytes) (a : Nat) : Bytes := fun k ↦
  sectors (a + k / sectorBytes) (k % sectorBytes)

/-- The sectors, after `n` of them were written from sector `a` on. -/
def written (sectors : Nat → Bytes) (a n : Nat) (buffer : Bytes) : Nat → Bytes := fun b ↦
  if a ≤ b ∧ b < a + n then
    (sectors b).splice 0 ((buffer.drop (sectorBytes * (b - a))).take sectorBytes)
  else sectors b

/-- The disk is at the first word of a sector, in a transfer. -/
structure InTransfer (d : Lba28) (sectors : Nat → Bytes) (writing : Bool) (a r : Nat) :
    Prop where
  sectors : d.sectors = sectors
  writing : d.writing = writing
  address : d.address = a
  remaining : d.remaining = r
  word : d.word = 0

section

variable {d : Lba28} {sectors : Nat → Bytes} {a r i sectorCount : Nat} {buffer : Bytes}

theorem take_diskBytes_succ (sectors : Nat → Bytes) (a i : Nat) :
    (diskBytes sectors a).take (sectorBytes * (i + 1)) =
      (diskBytes sectors a).take (sectorBytes * i) ++ (sectors (a + i)).take sectorBytes := by
  have hlast : ((diskBytes sectors a).drop (sectorBytes * i)).take sectorBytes =
      (sectors (a + i)).take sectorBytes := by
    refine Bytes.take_congr fun j hj ↦ ?_
    have hdiv : (sectorBytes * i + j) / sectorBytes = i := by
      unfold sectorBytes at *
      omega
    have hmod : (sectorBytes * i + j) % sectorBytes = j := by
      unfold sectorBytes at *
      omega
    rw [Bytes.drop_apply, diskBytes, hdiv, hmod]
  rw [Nat.mul_add_one, Bytes.take_add, hlast]

theorem written_zero (sectors : Nat → Bytes) (a : Nat) (buffer : Bytes) :
    written sectors a 0 buffer = sectors := by
  funext b
  exact if_neg (by omega)

theorem written_succ (sectors : Nat → Bytes) (a i : Nat) (buffer : Bytes) :
    Function.update (written sectors a i buffer) (a + i)
      ((written sectors a i buffer (a + i)).splice 0
        ((buffer.drop (i * sectorBytes)).take sectorBytes)) = written sectors a (i + 1) buffer := by
  funext b
  by_cases hb : b = a + i
  · subst hb
    rw [Function.update_self, written, if_neg (by omega), written, if_pos (by omega),
      Nat.add_sub_cancel_left, Nat.mul_comm i]
  · rw [Function.update_of_ne hb, written, written]
    by_cases hin : a ≤ b ∧ b < a + i
    · rw [if_pos hin, if_pos (by omega)]
    · rw [if_neg hin, if_neg (by omega)]

/-- What was written is read. -/
theorem diskBytes_written (sectors : Nat → Bytes) (a n : Nat) (buffer : Bytes) {k : Nat}
    (hk : k < sectorBytes * n) : diskBytes (written sectors a n buffer) a k = buffer k := by
  have hdiv : k / sectorBytes < n := Nat.div_lt_of_lt_mul hk
  have hmod : k % sectorBytes < sectorBytes := Nat.mod_lt _ (by decide)
  have hin : a ≤ a + k / sectorBytes ∧ a + k / sectorBytes < a + n :=
    ⟨Nat.le_add_right _ _, Nat.add_lt_add_left hdiv a⟩
  have hlen : k % sectorBytes <
      ((buffer.drop (sectorBytes * (k / sectorBytes))).take sectorBytes).length := by
    rwa [Bytes.length_take]
  rw [diskBytes, written, if_pos hin, Nat.add_sub_cancel_left, ← Nat.zero_add (k % sectorBytes),
    Bytes.splice_add hlen]
  simp only [Bytes.take, List.getElem_map, List.getElem_range, Bytes.drop_apply, Nat.div_add_mod]

theorem InTransfer.ready {writing : Bool} (h : InTransfer d sectors writing a r) :
    InTransfer d.ready sectors writing a r :=
  ⟨h.sectors, h.writing, h.address, h.remaining, h.word⟩

/-- Behind a sector comes the next one. -/
theorem InTransfer.nextSector {writing : Bool} (h : InTransfer d sectors writing (a + i) (r - i)) :
    InTransfer d.nextSector sectors writing (a + (i + 1)) (r - (i + 1)) := by
  refine ⟨h.sectors, h.writing, congrArg (· + 1) h.address, ?_, rfl⟩
  rw [← Nat.sub_sub]
  exact congrArg (· - 1) h.remaining

/-- A sector that is read. -/
theorem InTransfer.readSector_eq (h : InTransfer d sectors false a r) (hbusy : d.busy = 0)
    (hr : r ≠ 0) (i : Nat) : readSector lba28 i (buffer, d) =
      (buffer.splice (i * sectorBytes) ((sectors a).take sectorBytes), d.nextSector) := by
  have hmoves : d.Moves false := ⟨hbusy, by rwa [h.remaining], h.writing⟩
  have hwords : d.word + (255 + 1) = sectorWords := by
    rw [h.word]
    rfl
  have hread := repInsw_lba28 hmoves hwords buffer (i * sectorBytes)
  rw [h.word, Nat.mul_zero, Bytes.drop_zero, h.sectors, h.address] at hread
  exact hread

/-- A sector that is written. -/
theorem InTransfer.writeSector_eq (h : InTransfer d sectors true a r) (hbusy : d.busy = 0)
    (hr : r ≠ 0) (i : Nat) : writeSector lba28 i (buffer, d) =
      (buffer, (d.stored ((buffer.drop (i * sectorBytes)).take sectorBytes)).nextSector) := by
  have hmoves : d.Moves true := ⟨hbusy, by rwa [h.remaining], h.writing⟩
  have hwords : d.word + (255 + 1) = sectorWords := by
    rw [h.word]
    rfl
  have hwrite := outWords_lba28 hmoves hwords buffer i
  rw [h.word, Nat.mul_zero, Bytes.drop_zero] at hwrite
  exact congrArg (Prod.mk buffer) hwrite

/-! ## Transfers -/

/-- The four registers hold the 28 bits of the address. -/
theorem address_eq (lba : Nat) :
    (UInt8.ofNat (0xE0 ||| (lba >>> 24 &&& 0x0F))).toNat % 16 * 2 ^ 24 +
      (UInt8.ofNat (lba >>> 16 &&& 0xFF)).toNat * 2 ^ 16 +
      (UInt8.ofNat (lba >>> 8 &&& 0xFF)).toNat * 2 ^ 8 +
      (UInt8.ofNat (lba &&& 0xFF)).toNat = lba % 2 ^ 28 := by
  have hnibble : ∀ x < 16, (0xE0 ||| x) % 256 % 16 = x := by decide
  have hbyte : ∀ n : Nat, n &&& 0xFF = n % 2 ^ 8 := fun n ↦ Nat.and_two_pow_sub_one_eq_mod n 8
  have hhalf : ∀ n : Nat, n &&& 0x0F = n % 2 ^ 4 := fun n ↦ Nat.and_two_pow_sub_one_eq_mod n 4
  have hdrive := hnibble (lba >>> 24 % 2 ^ 4) (Nat.mod_lt _ (by decide))
  simp only [UInt8.toNat_ofNat', hbyte, hhalf]
  rw [hdrive]
  simp only [Nat.shiftRight_eq_div_pow]
  omega

/-- A command starts a transfer from its address on. -/
theorem ataCommand_lba28 (d : Lba28) (lba : Nat) (hcount : sectorCount < 256) (writing : Bool) :
    ∃ d', Returns (fun fuel ↦ ataCommand lba28
        (if writing then ataCmdWriteSectors else ataCmdReadSectors) fuel lba sectorCount d) d' ∧
      InTransfer d' d.sectors writing (lba % 2 ^ 28)
        (if sectorCount = 0 then 256 else sectorCount) := by
  obtain ⟨registers, hregisters⟩ : ∃ registers : Lba28, registers =
      { d.ready with
        driveSelect := UInt8.ofNat (0xE0 ||| (lba >>> 24 &&& 0x0F))
        seccount := UInt8.ofNat sectorCount
        lba0 := UInt8.ofNat (lba &&& 0xFF)
        lba1 := UInt8.ofNat (lba >>> 8 &&& 0xFF)
        lba2 := UInt8.ofNat (lba >>> 16 &&& 0xFF) } := ⟨_, rfl⟩
  have hstart : registers.execute
      (if writing then ataCmdWriteSectors else ataCmdReadSectors) = registers.start writing := by
    cases writing with
    | false => exact if_pos rfl
    | true => exact (if_neg (by decide)).trans (if_pos rfl)
  have haddress : registers.lba = lba % 2 ^ 28 := by
    rw [hregisters]
    exact address_eq lba
  have hrequested : registers.requested = if sectorCount = 0 then 256 else sectorCount := by
    have hnat : (UInt8.ofNat sectorCount).toNat = sectorCount := by
      rw [UInt8.toNat_ofNat']
      omega
    have hzero : UInt8.ofNat sectorCount = 0 ↔ sectorCount = 0 := by
      rw [← UInt8.toNat_inj, hnat, UInt8.toNat_zero]
    rw [Lba28.requested, hregisters]
    simp only [hzero, hnat]
  refine ⟨registers.start writing, (ataWaitReady_lba28 d).bind ?_, ?_, rfl, haddress,
    hrequested, rfl⟩
  · rw [← hstart, hregisters]
    exact returns_ok _
  · rw [hregisters]
    rfl

/-- **The sectors are read** one after the other. -/
theorem InTransfer.readLoop (h : InTransfer d sectors false a r) (hcount : sectorCount < 256)
    (hr : sectorCount ≤ r) (buffer : Bytes) : ∃ d',
    Returns (fun fuel ↦ sectorLoop lba28 (readSector lba28) fuel sectorCount fuel 0 (buffer, d))
      (buffer.splice 0 ((diskBytes sectors a).take (sectorBytes * sectorCount)), d') ∧
    d'.sectors = sectors := by
  have hround : ∀ i buffer' d, i < sectorCount →
      (buffer' = buffer.splice 0 ((diskBytes sectors a).take (sectorBytes * i)) ∧
        InTransfer d sectors false (a + i) (r - i)) →
      ∃ d', Returns (fun fuel ↦ ataWaitData lba28 fuel d) d' ∧
        (readSector lba28 i (buffer', d')).1 =
          buffer.splice 0 ((diskBytes sectors a).take (sectorBytes * (i + 1))) ∧
        InTransfer (readSector lba28 i (buffer', d')).2 sectors false (a + (i + 1))
          (r - (i + 1)) := by
    rintro i buffer' d hi ⟨rfl, hd⟩
    have hleft : r - i ≠ 0 := by omega
    refine ⟨d.ready, ataWaitData_lba28 (by rwa [hd.remaining]), ?_, ?_⟩
    · rw [hd.ready.readSector_eq rfl hleft]
      have hsplice := Bytes.splice_append buffer 0 ((diskBytes sectors a).take (sectorBytes * i))
        ((sectors (a + i)).take sectorBytes)
      rw [Bytes.length_take, Nat.zero_add, Nat.mul_comm sectorBytes i] at hsplice
      rw [take_diskBytes_succ, Nat.mul_comm sectorBytes i]
      exact hsplice
    · rw [hd.ready.readSector_eq rfl hleft]
      exact hd.ready.nextSector
  obtain ⟨⟨buffer', d'⟩, ⟨rfl, hend⟩, hreturns⟩ := sectorLoop_returns lba28 (readSector lba28)
    (I := fun i s ↦ s.1 = buffer.splice 0 ((diskBytes sectors a).take (sectorBytes * i)) ∧
      InTransfer s.2 sectors false (a + i) (r - i)) (s := (buffer, d)) hcount hround
    ⟨(Bytes.splice_nil buffer 0).symm, h⟩
  exact ⟨d', hreturns, hend.sectors⟩

/-- **The sectors are written** one after the other. -/
theorem InTransfer.writeLoop (h : InTransfer d sectors true a r) (hcount : sectorCount < 256)
    (hr : sectorCount ≤ r) (buffer : Bytes) : ∃ d',
    Returns (fun fuel ↦ sectorLoop lba28 (writeSector lba28) fuel sectorCount fuel 0 (buffer, d))
      (buffer, d') ∧ d'.sectors = written sectors a sectorCount buffer := by
  have hround : ∀ i buffer' d, i < sectorCount →
      (buffer' = buffer ∧ InTransfer d (written sectors a i buffer) true (a + i) (r - i)) →
      ∃ d', Returns (fun fuel ↦ ataWaitData lba28 fuel d) d' ∧
        (writeSector lba28 i (buffer', d')).1 = buffer ∧
        InTransfer (writeSector lba28 i (buffer', d')).2 (written sectors a (i + 1) buffer) true
          (a + (i + 1)) (r - (i + 1)) := by
    rintro i buffer' d hi ⟨rfl, hd⟩
    have hleft : r - i ≠ 0 := by omega
    refine ⟨d.ready, ataWaitData_lba28 (by rwa [hd.remaining]), rfl, ?_⟩
    rw [hd.ready.writeSector_eq rfl hleft, ← written_succ]
    refine InTransfer.nextSector ⟨?_, hd.writing, hd.address, hd.remaining, hd.word⟩
    change Function.update d.sectors d.address ((d.sectors d.address).splice (2 * d.word) _) = _
    rw [hd.sectors, hd.address, hd.word]
  obtain ⟨⟨buffer', d'⟩, ⟨rfl, hend⟩, hreturns⟩ := sectorLoop_returns lba28 (writeSector lba28)
    (I := fun i s ↦ s.1 = buffer ∧
      InTransfer s.2 (written sectors a i buffer) true (a + i) (r - i)) (s := (buffer, d))
    hcount hround ⟨rfl, by rwa [written_zero]⟩
  exact ⟨d', hreturns, hend.sectors⟩

/-- A command asks for no fewer sectors than it is given. -/
theorem le_requested (sectorCount : Nat) :
    sectorCount ≤ if sectorCount = 0 then 256 else sectorCount := by
  split
  · omega
  · exact le_rfl

/-- **`ata_read_sectors`** reads the sectors from its address on. -/
theorem ataReadSectors_lba28 (d : Lba28) (lba : Nat) (hcount : sectorCount < 256)
    (buffer : Bytes) : ∃ d',
    Returns (fun fuel ↦ ataReadSectors lba28 fuel lba sectorCount buffer d)
      (buffer.splice 0 ((diskBytes d.sectors (lba % 2 ^ 28)).take (sectorBytes * sectorCount)),
        d') ∧
    d'.sectors = d.sectors := by
  obtain ⟨d₁, hcommand, htransfer⟩ := ataCommand_lba28 d lba hcount false
  obtain ⟨d₂, hloop, hsectors⟩ := htransfer.ready.readLoop hcount (le_requested sectorCount) buffer
  exact ⟨d₂, hcommand.bind ((ataWaitReady_lba28 d₁).bind hloop), hsectors⟩

/-- **`ata_write_sectors`** writes the sectors from its address on. -/
theorem ataWriteSectors_lba28 (d : Lba28) (lba : Nat) (hcount : sectorCount < 256)
    (buffer : Bytes) : ∃ d',
    Returns (fun fuel ↦ ataWriteSectors lba28 fuel lba sectorCount buffer d) d' ∧
    d'.sectors = written d.sectors (lba % 2 ^ 28) sectorCount buffer := by
  obtain ⟨d₁, hcommand, htransfer⟩ := ataCommand_lba28 d lba hcount true
  obtain ⟨d₂, hloop, hsectors⟩ := htransfer.writeLoop hcount (le_requested sectorCount) buffer
  have hflush : Returns (fun fuel ↦ ataCacheFlush lba28 fuel d₂)
      (lba28.outb ataRegCommand ataCmdCacheFlush d₂.ready).ready :=
    Returns.bind (g := fun fuel d ↦ ataWaitReady lba28 fuel
      (lba28.outb ataRegCommand ataCmdCacheFlush d)) (ataWaitReady_lba28 d₂)
      (ataWaitReady_lba28 _)
  exact ⟨_, hcommand.bind (hloop.bind hflush), hsectors⟩

/-- **What is written is read back**, and no other sector changes. -/
theorem write_read_sectors (d : Lba28) (buffer result : Bytes) {lba sectorCount : Nat}
    (hpos : 1 ≤ sectorCount) (hle : sectorCount ≤ 255) (hend : lba + sectorCount ≤ 2 ^ 28) :
    ∃ d₁ result' d₂,
      Returns (fun fuel ↦ ataWriteSectors lba28 fuel lba sectorCount buffer d) d₁ ∧
      Returns (fun fuel ↦ ataReadSectors lba28 fuel lba sectorCount result d₁) (result', d₂) ∧
      result'.take (sectorBytes * sectorCount) = buffer.take (sectorBytes * sectorCount) ∧
      ∀ a, ¬ (lba ≤ a ∧ a < lba + sectorCount) →
        d₁.sectors a = d.sectors a ∧ d₂.sectors a = d.sectors a := by
  have haddress : lba % 2 ^ 28 = lba := Nat.mod_eq_of_lt (by omega)
  have hcount : sectorCount < 256 := by omega
  obtain ⟨d₁, hwrite, hsectors₁⟩ := ataWriteSectors_lba28 d lba hcount buffer
  obtain ⟨d₂, hread, hsectors₂⟩ := ataReadSectors_lba28 d₁ lba hcount result
  rw [haddress] at hsectors₁ hread
  refine ⟨d₁, _, d₂, hwrite, hread, ?_, fun a ha ↦ ?_⟩
  · have htake := Bytes.take_splice result 0
      ((diskBytes d₁.sectors lba).take (sectorBytes * sectorCount))
    rw [Bytes.drop_zero, Bytes.length_take] at htake
    rw [htake, hsectors₁]
    exact Bytes.take_congr fun k hk ↦ diskBytes_written d.sectors lba sectorCount buffer hk
  · rw [hsectors₂, hsectors₁]
    exact ⟨if_neg ha, if_neg ha⟩

/-- A disk that holds zeros, and is busy for as many reads as it was busy before. -/
def Lba28.blank : Lba28 where
  sectors := fun _ _ ↦ 0
  seccount := 0
  lba0 := 0
  lba1 := 0
  lba2 := 0
  driveSelect := 0
  writing := false
  address := 0
  remaining := 0
  word := 0
  busy := 3
  latency := fun n ↦ n
  operations := 0

/-- Two sectors of the byte 7, from sector 5 on. -/
theorem write_read_two : ∃ d₁ result' d₂,
    Returns (fun fuel ↦ ataWriteSectors lba28 fuel 5 2 (fun _ ↦ 7) Lba28.blank) d₁ ∧
    Returns (fun fuel ↦ ataReadSectors lba28 fuel 5 2 (fun _ ↦ 0) d₁) (result', d₂) ∧
    result' 1023 = 7 ∧ d₂.sectors 7 0 = 0 := by
  have hpos : 1 ≤ 2 := by decide
  have hle : 2 ≤ 255 := by decide
  have hend : 5 + 2 ≤ 2 ^ 28 := by decide
  obtain ⟨d₁, result', d₂, hwrite, hread, htake, hother⟩ :=
    write_read_sectors .blank (fun _ ↦ 7) (fun _ ↦ 0) hpos hle hend
  refine ⟨d₁, result', d₂, hwrite, hread, ?_, ?_⟩
  · have hlt : 1023 < sectorBytes * 2 := by decide
    rw [Bytes.take, Bytes.take, List.map_inj_left] at htake
    exact htake 1023 (List.mem_range.mpr hlt)
  · rw [(hother 7 (by decide)).2]
    rfl

/-! ## Blocks -/

/-- **The disk serves** fewer than 256 sectors, from whatever state. -/
theorem serves_lba28 : Serves lba28 where
  read := by
    intro d lba sectorCount buffer hcount
    obtain ⟨d', hread, -⟩ := ataReadSectors_lba28 d lba hcount buffer
    exact ⟨_, hread⟩
  write := by
    intro d lba sectorCount buffer hcount
    obtain ⟨d', hwrite, -⟩ := ataWriteSectors_lba28 d lba hcount buffer
    exact ⟨d', hwrite⟩

/-- Both functions for blocks do what they are asked to. -/
def BlocksExactly {σ : Type} (io : PortDevice σ) (d : σ) (blockNum : Nat) (buffer : Bytes)
    (count : Nat) : Prop :=
  ReadsExactly io d blockNum buffer count ∧ WritesExactly io d blockNum buffer count

/-- **The functions for blocks transfer the sectors of the blocks and return** exactly for fewer
than 32 blocks: on each device that always becomes ready, and on the disk, which asks for data as
often as the command says. -/
theorem blocks_iff (blockNum : Nat) (buffer : Bytes) (count : Nat) :
    (∀ {σ : Type} (io : PortDevice σ), AlwaysReady io → ∀ d : σ,
      (BlocksExactly io d blockNum buffer count ↔ count < 32)) ∧
    ∀ d : Lba28, BlocksExactly lba28 d blockNum buffer count ↔ count < 32 := by
  have hserves : ∀ {σ : Type} (io : PortDevice σ), Serves io → ∀ d : σ,
      (BlocksExactly io d blockNum buffer count ↔ count < 32) := by
    intro σ io h d
    rw [BlocksExactly, h.readsExactly_iff, h.writesExactly_iff, and_self]
  exact ⟨fun io h ↦ hserves io h.serves, hserves lba28 serves_lba28⟩

/-- A disk that has 32 blocks to transfer: 256 sectors, as many as a command can ask for. -/
theorem not_blocks_32 : ¬ ∀ (d : Lba28) (blockNum : Nat) (buffer : Bytes) (count : Nat),
    BlocksExactly lba28 d blockNum buffer count := by
  intro h
  have hread := (h .blank 0 (fun _ ↦ 0) 32).1
  exact absurd (serves_lba28.readsExactly_iff.mp hread) (by decide)

/-- A device without a state: it is never busy, and always asks for data. -/
def readyDevice : PortDevice Unit where
  inb _ d := (0x48, d)
  outb _ _ d := d
  inw _ d := (0, d)
  outw _ _ d := d

theorem alwaysReady_readyDevice : AlwaysReady readyDevice where
  ready := fun () ↦ ⟨0, by decide⟩
  data := fun () ↦ ⟨0, by decide⟩

/-- It transfers 31 blocks, and not 32. -/
theorem blocks_readyDevice : BlocksExactly readyDevice () 0 (fun _ ↦ 0) 31 ∧
    ¬ BlocksExactly readyDevice () 0 (fun _ ↦ 0) 32 :=
  ⟨((blocks_iff 0 (fun _ ↦ 0) 31).1 readyDevice alwaysReady_readyDevice ()).mpr (by decide),
    fun h ↦ absurd (((blocks_iff 0 (fun _ ↦ 0) 32).1 readyDevice alwaysReady_readyDevice ()).mp h)
      (by decide)⟩

end

/-! ## The disk of the file system -/

/-- The blocks that the sectors make. -/
def blocks (sectors : Nat → Bytes) : Fs.Disk := fun b ↦ diskBytes sectors (sectorsPerBlock * b)

/-- The sector where a block begins. -/
theorem block_address (blockNum : Nat) :
    blockNum * sectorsPerBlock % 2 ^ 32 % 2 ^ 28 = sectorsPerBlock * Fs.blockAddress blockNum := by
  rw [Fs.blockAddress, sectorsPerBlock]
  omega

/-- The bytes of a block are among those from an earlier block on. -/
theorem blocks_add (sectors : Nat → Bytes) (b j k : Nat) :
    blocks sectors (b + j) k = diskBytes sectors (sectorsPerBlock * b) (Fs.blockBytes * j + k) := by
  have hdiv : (Fs.blockBytes * j + k) / sectorBytes = sectorsPerBlock * j + k / sectorBytes := by
    unfold Fs.blockBytes sectorBytes sectorsPerBlock
    omega
  have hmod : (Fs.blockBytes * j + k) % sectorBytes = k % sectorBytes := by
    unfold Fs.blockBytes sectorBytes
    omega
  rw [blocks, diskBytes, diskBytes, hdiv, hmod, Nat.mul_add, Nat.add_assoc]

section

variable {blockNum count : Nat} (d : Lba28) (buffer : Bytes) (hcount : count < 32)
  (hend : Fs.blockAddress blockNum + count ≤ 2 ^ 25)

include hcount hend

/-- **Reading blocks** gives what the file system takes the blocks for. -/
theorem ataReadBlocks_lba28 : ∃ buffer' d',
    Returns (fun fuel ↦ ataReadBlocks lba28 fuel blockNum buffer count d) (buffer', d') ∧
    buffer'.take (Fs.blockBytes * count) =
      (Fs.ataReadBlocks (blocks d.sectors) (Fs.blockAddress blockNum)).take
        (Fs.blockBytes * count) ∧
    d'.sectors = d.sectors := by
  obtain ⟨hsectors, hfew⟩ := sectors_of_lt hcount
  obtain ⟨d', hread, hkept⟩ := ataReadSectors_lba28 d (blockNum * sectorsPerBlock % 2 ^ 32) hfew
    buffer
  rw [← hsectors] at hread
  refine ⟨_, d', hread, ?_, hkept⟩
  have hbytes : sectorBytes * (sectorsPerBlock * count) = Fs.blockBytes * count := by
    rw [← Nat.mul_assoc]
    rfl
  have htake := Bytes.take_splice buffer 0
    ((diskBytes d.sectors (sectorsPerBlock * Fs.blockAddress blockNum)).take
      (Fs.blockBytes * count))
  rw [Bytes.drop_zero, Bytes.length_take] at htake
  rw [hsectors, hbytes, block_address, htake]
  refine Bytes.take_congr fun i hi ↦ ?_
  have hblock : i / Fs.blockBytes < count := Nat.div_lt_of_lt_mul hi
  generalize Fs.blockAddress blockNum = a at hend ⊢
  rw [Fs.ataReadBlocks, Fs.ataReadBlock, Fs.blockAddress_of_lt (by omega), blocks_add,
    Nat.div_add_mod]

/-- **Writing blocks** changes the disk as the file system takes it to. -/
theorem ataWriteBlocks_lba28 : ∃ d',
    Returns (fun fuel ↦ ataWriteBlocks lba28 fuel blockNum buffer count d) d' ∧
    ∀ b, (blocks d'.sectors b).take Fs.blockBytes =
      (Fs.ataWriteBlocks (blocks d.sectors) (Fs.blockAddress blockNum) buffer count b).take
        Fs.blockBytes := by
  obtain ⟨hsectors, hfew⟩ := sectors_of_lt hcount
  obtain ⟨d', hwrite, hwritten⟩ := ataWriteSectors_lba28 d (blockNum * sectorsPerBlock % 2 ^ 32)
    hfew buffer
  rw [block_address] at hwritten
  rw [← hsectors] at hwrite
  refine ⟨d', hwrite, fun b ↦ Bytes.take_congr fun k hk ↦ ?_⟩
  generalize Fs.blockAddress blockNum = a at hend hwritten ⊢
  rw [hwritten]
  by_cases hb : a ≤ b ∧ b < a + count
  · obtain ⟨j, rfl⟩ := Nat.exists_eq_add_of_le hb.1
    have hj : j < count := by omega
    have hread := Fs.read_write_blocks_of_mem (blocks d.sectors) buffer hend hj
    rw [Fs.ataReadBlock, Fs.blockAddress_of_lt (by omega)] at hread
    rw [hread, blocks_add]
    refine diskBytes_written d.sectors _ _ buffer ?_
    unfold Fs.blockBytes sectorBytes sectorsPerBlock at *
    omega
  · have hsector : k / sectorBytes < sectorsPerBlock := Nat.div_lt_of_lt_mul hk
    have hout : ¬ (sectorsPerBlock * a ≤ sectorsPerBlock * b + k / sectorBytes ∧
        sectorsPerBlock * b + k / sectorBytes < sectorsPerBlock * a + sectorsPerBlock * count) := by
      generalize k / sectorBytes = sector at *
      unfold sectorsPerBlock at *
      omega
    rw [Fs.writeBlocks_of_notMem _ _ hend (by omega), blocks, blocks, diskBytes, diskBytes, written,
      if_neg hout]

end

end Yorha.Io
