import Yorha.Page.Paging

/-!
# What `map_page` maps

`lookup` is the pair of entries that an address leads to, if both are present; what
`get_physaddr` finds and what the processor uses are functions of it.  `mapPage_ok` says that
`map_page` changes the lookup of one page and of no other.

The code reaches the tables through the last entry of the directory, so every store goes to a
frame that the tables themselves say where it is.  `Shown` is what makes such a store land
where it should, and `ChangesOnly` what keeps the other tables: a store to one frame does not
reach another.  A new table has to be shown before it can be cleared; in between, its entries
are what the page had before, and nothing is translated by them.
-/

namespace Yorha.Page

open Yorha.Lib Yorha.Util Yorha.Heap

/-! ## Tables -/

/-- An entry of the directory. -/
def Machine.pde (m : Machine) (i : Nat) : Nat := m.word (m.dir + 4 * i)

/-- An entry of a table. -/
def Machine.pte (m : Machine) (i j : Nat) : Nat := m.word (frame (m.pde i) + 4 * j)

/-- The entries that a page leads to, if they are present. -/
def Machine.lookup (m : Machine) (i j : Nat) : Option (Nat × Nat) :=
  if IsPresent (m.pde i) ∧ IsPresent (m.pte i j) then some (m.pde i, m.pte i j) else none

/-- The last entry of the directory leads to the directory, and the tables are in frames of
their own. -/
structure SelfMapped (m : Machine) : Prop where
  cr3_lt : m.cr3 < 2 ^ 32
  present : IsPresent (m.pde 1023)
  self : frame (m.pde 1023) = m.dir
  writable : ∀ {i}, i < 1024 → IsPresent (m.pde i) → IsWritable (m.pde i)
  apart : ∀ {i}, i < 1023 → IsPresent (m.pde i) → frame (m.pde i) ≠ m.dir
  distinct : ∀ {i j}, i < 1023 → j < 1023 → IsPresent (m.pde i) → IsPresent (m.pde j) →
    frame (m.pde i) = frame (m.pde j) → i = j

/-- The directory shows the table of entry `i`, and it can be written there. -/
structure Shown (m : Machine) (i : Nat) : Prop where
  last : IsPresent (m.pde 1023) ∧ IsWritable (m.pde 1023)
  self : frame (m.pde 1023) = m.dir
  entry : IsPresent (m.pde i) ∧ IsWritable (m.pde i)

/-- A page that is neither the directory nor a table. -/
structure Unused (m : Machine) (addr : Nat) : Prop where
  aligned : 4096 ∣ addr
  lt : addr < 2 ^ 32
  pos : 0 < addr
  ne_dir : addr ≠ m.dir
  ne_table : ∀ {i}, i < 1023 → IsPresent (m.pde i) → addr ≠ frame (m.pde i)

/-- Only the frame at `addr` may have changed. -/
structure ChangesOnly (m m' : Machine) (addr : Nat) : Prop where
  dir : m'.dir = m.dir
  mem : ∀ a, ¬ (addr ≤ a ∧ a < addr + 4096) → m'.mem a = m.mem a

section

variable {m m' m'' : Machine} {i j k addr entry n o : Nat} {write : Bool}

theorem Machine.word_lt (m : Machine) (addr : Nat) : m.word addr < 2 ^ 32 := Bytes.word_lt _

theorem frame_dvd (h : entry < 2 ^ 32) : 4096 ∣ frame entry := ⟨_, frame_eq h⟩

theorem Machine.frame_pde_dvd (m : Machine) (i : Nat) : 4096 ∣ frame (m.pde i) :=
  frame_dvd (m.word_lt _)

theorem SelfMapped.dir_dvd (hm : SelfMapped m) : 4096 ∣ m.dir := frame_dvd hm.cr3_lt

theorem SelfMapped.shown (hm : SelfMapped m) (hi : i < 1024) (hp : IsPresent (m.pde i)) :
    Shown m i :=
  ⟨⟨hm.present, hm.writable (by decide) hm.present⟩, hm.self, hp, hm.writable hi hp⟩

/-! ## Frames -/

/-- Two frames have no byte in common. -/
theorem frames_apart {a b c : Nat} (ha : 4096 ∣ a) (hb : 4096 ∣ b) (hne : a ≠ b) (h₁ : a ≤ c)
    (h₂ : c < a + 4096) : ¬ (b ≤ c ∧ c < b + 4096) := by
  obtain ⟨x, rfl⟩ := ha
  obtain ⟨y, rfl⟩ := hb
  omega

theorem ChangesOnly.refl (m : Machine) (addr : Nat) : ChangesOnly m m addr :=
  ⟨rfl, fun _ _ ↦ rfl⟩

theorem ChangesOnly.trans (h : ChangesOnly m m' addr) (h' : ChangesOnly m' m'' addr) :
    ChangesOnly m m'' addr :=
  ⟨h'.dir.trans h.dir, fun a ha ↦ (h'.mem a ha).trans (h.mem a ha)⟩

/-- The words of another frame stay. -/
theorem ChangesOnly.word (h : ChangesOnly m m' addr) (haddr : 4096 ∣ addr) (hk : 4096 ∣ k)
    (hne : k ≠ addr) (hj : j < 1024) : m'.word (k + 4 * j) = m.word (k + 4 * j) := by
  apply Bytes.word_congr
  intro b hb
  exact h.mem _ (frames_apart hk haddr hne (by omega) (by omega))

/-- The directory stays, if it is another frame. -/
theorem ChangesOnly.pde (h : ChangesOnly m m' addr) (haddr : 4096 ∣ addr) (hdir : 4096 ∣ m.dir)
    (hne : m.dir ≠ addr) (hi : i < 1024) : m'.pde i = m.pde i := by
  rw [Machine.pde, h.dir]
  exact h.word haddr hdir hne hi

/-- A table stays, if it is another frame and is still where it was. -/
theorem ChangesOnly.pte (h : ChangesOnly m m' addr) (haddr : 4096 ∣ addr)
    (hpde : m'.pde i = m.pde i) (hne : frame (m.pde i) ≠ addr) (hj : j < 1024) :
    m'.pte i j = m.pte i j := by
  rw [Machine.pte, hpde]
  exact h.word haddr (m.frame_pde_dvd i) hne hj

/-- The tables are as good as they were, if the directory is the same. -/
theorem SelfMapped.congr (hm : SelfMapped m) (hcr3 : m'.cr3 < 2 ^ 32) (hdir : m'.dir = m.dir)
    (hpde : ∀ {i}, i < 1024 → m'.pde i = m.pde i) : SelfMapped m' where
  cr3_lt := hcr3
  present := by
    rw [hpde (by decide)]
    exact hm.present
  self := by
    rw [hpde (by decide), hdir]
    exact hm.self
  writable := by
    intro i hi
    rw [hpde hi]
    exact hm.writable hi
  apart := by
    intro i hi
    rw [hpde (by omega), hdir]
    exact hm.apart hi
  distinct := by
    intro i j hi hj
    rw [hpde (by omega), hpde (by omega)]
    exact hm.distinct hi hj

/-- A new entry of the directory that leads to an unused frame. -/
theorem SelfMapped.install (hm : SelfMapped m) (hcr3 : m'.cr3 < 2 ^ 32) (hdir : m'.dir = m.dir)
    (hi : i < 1023) (hentry : m'.pde i = entry) (hwritable : IsWritable entry)
    (hunused : Unused m (frame entry))
    (hpde : ∀ {k}, k < 1024 → k ≠ i → m'.pde k = m.pde k) : SelfMapped m' where
  cr3_lt := hcr3
  present := by
    rw [hpde (by decide) (by omega)]
    exact hm.present
  self := by
    rw [hpde (by decide) (by omega), hdir]
    exact hm.self
  writable := by
    intro k hk
    by_cases heq : k = i
    · subst heq
      rw [hentry]
      exact fun _ ↦ hwritable
    · rw [hpde hk heq]
      exact hm.writable hk
  apart := by
    intro k hk
    rw [hdir]
    by_cases heq : k = i
    · subst heq
      rw [hentry]
      exact fun _ ↦ hunused.ne_dir
    · rw [hpde (by omega) heq]
      exact hm.apart hk
  distinct := by
    intro k l hk hl hpk hpl hframe
    by_cases hki : k = i
    · by_cases hli : l = i
      · rw [hki, hli]
      · rw [hpde (by omega) hli] at hpl hframe
        rw [hki, hentry] at hframe
        exact absurd hframe (hunused.ne_table hl hpl)
    · rw [hpde (by omega) hki] at hpk hframe
      by_cases hli : l = i
      · rw [hli, hentry] at hframe
        exact absurd hframe.symm (hunused.ne_table hk hpk)
      · rw [hpde (by omega) hli] at hpl hframe
        exact hm.distinct hk hl hpk hpl hframe

/-! ## Access through the directory -/

theorem denies_eq_false (hp : IsPresent entry) (hw : IsWritable entry) (write : Bool) :
    denies entry write = false := by
  have hp' : (entry &&& pagePresent == 0) = false := beq_false_of_ne hp
  have hw' : (entry &&& pageWrite == 0) = false := beq_false_of_ne hw
  rw [denies, hp', hw', Bool.and_false, Bool.or_false]

/-- Where an address of a table as the directory shows it leads to. -/
theorem pageTable_indices (hi : i < 1024) (ho : o < 4096) :
    (pageTable i + o) >>> 22 = 1023 ∧ (pageTable i + o) >>> 12 &&& 0x3FF = i ∧
      (pageTable i + o) &&& 0xFFF = o := by
  have haddr : pageTable i + o = 0xFFC00000 + 4096 * i + o := by
    rw [pageTable]
    omega
  have hten : (0x3FF : Nat) = 2 ^ 10 - 1 := rfl
  have htwelve : (0xFFF : Nat) = 2 ^ 12 - 1 := rfl
  rw [haddr, hten, htwelve, Nat.and_two_pow_sub_one_eq_mod, Nat.and_two_pow_sub_one_eq_mod,
    Nat.shiftRight_eq_div_pow, Nat.shiftRight_eq_div_pow]
  omega

/-- **An access to a table** reaches its frame. -/
theorem Shown.translate (hs : Shown m i) (hi : i < 1024) (ho : o < 4096) (write : Bool) :
    translate m (pageTable i + o) write = .ok (frame (m.pde i) + o) := by
  obtain ⟨h₁, h₂, h₃⟩ := pageTable_indices hi ho
  have hlast : m.word (m.dir + 4 * 1023) = m.pde 1023 := rfl
  have hself : m.pde 1023 &&& frameMask = m.dir := hs.self
  have hentry : m.word (m.dir + 4 * i) = m.pde i := rfl
  simp only [Page.translate, h₁, h₂, h₃, hlast, hself, hentry,
    denies_eq_false hs.last.1 hs.last.2, denies_eq_false hs.entry.1 hs.entry.2,
    Bool.false_eq_true, if_false]
  rfl

theorem pageDirectory_eq (i : Nat) : pageDirectory + 4 * i = pageTable 1023 + 4 * i := rfl

/-- Reading an entry of a table. -/
theorem Shown.readWord (hs : Shown m i) (hi : i < 1024) (hj : j < 1024) :
    readWord m (pageTable i + 4 * j) = .ok (m.pte i j) := by
  rw [Page.readWord, hs.translate hi (by omega), ok_bind]
  rfl

/-- Reading an entry of the directory. -/
theorem SelfMapped.readWord (hm : SelfMapped m) (hi : i < 1024) :
    readWord m (pageDirectory + 4 * i) = .ok (m.pde i) := by
  rw [pageDirectory_eq, (hm.shown (by decide) hm.present).readWord (by decide) hi, Machine.pte,
    hm.self]
  rfl

/-- Loading `cr3` changes nothing that counts. -/
theorem SelfMapped.loadCr3 (hm : SelfMapped m) : ∃ m', loadCr3 m = .ok m' ∧ SelfMapped m' ∧
    (∀ k, m'.pde k = m.pde k) ∧ ∀ k l, m'.pte k l = m.pte k l := by
  let m' : Machine := { m with cr3 := m.pde 1023 }
  have hload : Page.loadCr3 m = .ok m' := by rw [Page.loadCr3, hm.readWord (by decide), ok_bind]
  have hdir : m'.dir = m.dir := hm.self
  have hpde : ∀ k, m'.pde k = m.pde k := by
    intro k
    change m.word (m'.dir + 4 * k) = m.word (m.dir + 4 * k)
    rw [hdir]
  refine ⟨m', hload, hm.congr (m.word_lt _) hdir fun _ ↦ hpde _, hpde, fun k l ↦ ?_⟩
  change m.word (frame (m'.pde k) + 4 * l) = m.word (frame (m.pde k) + 4 * l)
  rw [hpde]

/-- Writing an entry of a table. -/
theorem Shown.writeWord (hs : Shown m i) (hi : i < 1024) (hj : j < 1024)
    (hentry : entry < 2 ^ 32) : ∃ m', writeWord m (pageTable i + 4 * j) entry = .ok m' ∧
      m'.cr3 = m.cr3 ∧ ChangesOnly m m' (frame (m.pde i)) ∧
      m'.word (frame (m.pde i) + 4 * j) = entry ∧
      ∀ k, k ≠ j → m'.word (frame (m.pde i) + 4 * k) = m.word (frame (m.pde i) + 4 * k) := by
  refine ⟨{ m with mem := m.mem.splice (frame (m.pde i) + 4 * j) (Bytes.ofWord entry) }, ?_, rfl,
    ⟨rfl, fun a ha ↦ ?_⟩, Bytes.word_splice _ _ _ hentry, fun k hk ↦ ?_⟩
  · rw [Page.writeWord, hs.translate hi (by omega), ok_bind]
  · apply Bytes.splice_of_notMem
    rw [Bytes.length_ofWord]
    omega
  · apply Bytes.word_congr
    intro b hb
    apply Bytes.splice_of_notMem
    rw [Bytes.length_ofWord]
    omega

theorem Shown.congr (hs : Shown m i) (hi : i < 1024) (hdir : m'.dir = m.dir)
    (hpde : ∀ {k}, k < 1024 → m'.pde k = m.pde k) : Shown m' i where
  last := by
    rw [hpde (by decide)]
    exact hs.last
  self := by
    rw [hpde (by decide), hdir]
    exact hs.self
  entry := by
    rw [hpde hi]
    exact hs.entry

/-- Clearing the first bytes of a table. -/
theorem Shown.memset (hs : Shown m i) (hi : i < 1024) (hdir : 4096 ∣ m.dir)
    (hne : m.dir ≠ frame (m.pde i)) (hn : n ≤ 4096) : ∃ m',
      memset m (pageTable i) 0 n = .ok m' ∧ m'.cr3 = m.cr3 ∧
      ChangesOnly m m' (frame (m.pde i)) ∧ ∀ b < n, m'.mem (frame (m.pde i) + b) = 0 := by
  induction n with
  | zero => exact ⟨m, rfl, rfl, ChangesOnly.refl m _, fun b hb ↦ absurd hb (Nat.not_lt_zero b)⟩
  | succ n ih =>
      obtain ⟨m₁, hset, hcr3, hc, hzero⟩ := ih (Nat.le_of_succ_le hn)
      have hpde : ∀ {k}, k < 1024 → m₁.pde k = m.pde k :=
        fun hk ↦ hc.pde (m.frame_pde_dvd i) hdir hne hk
      have hs₁ := hs.congr hi hc.dir hpde
      have hbyte := hs₁.translate hi (Nat.lt_of_succ_le hn) true
      rw [hpde hi] at hbyte
      refine ⟨{ m₁ with mem := m₁.mem.splice (frame (m.pde i) + n) [0] }, ?_, hcr3,
        hc.trans ⟨rfl, fun a ha ↦ ?_⟩, fun b hb ↦ ?_⟩
      · rw [Page.memset, hset, ok_bind, writeByte, hbyte, ok_bind]
      · apply Bytes.splice_of_notMem
        rw [List.length_singleton]
        omega
      · rcases Nat.lt_succ_iff_lt_or_eq.mp hb with hlt | rfl
        · refine (Bytes.splice_of_notMem ?_).trans (hzero b hlt)
          rw [List.length_singleton]
          omega
        · exact Bytes.splice_add (j := 0) (l := [0]) Nat.one_pos

/-! ## The code -/

/-- Entries that the code puts together. -/
theorem entry_facts {flags : Nat} (haddr : 4096 ∣ addr) (hlt : addr < 2 ^ 32)
    (hflags : flags < 8) (hwrite : flags &&& pageWrite ≠ 0) :
    addr ||| flags ||| pagePresent < 2 ^ 32 ∧ frame (addr ||| flags ||| pagePresent) = addr ∧
      IsPresent (addr ||| flags ||| pagePresent) ∧ IsWritable (addr ||| flags ||| pagePresent) := by
  obtain ⟨heq, hlow⟩ := entry_eq haddr hflags
  have hlt' : addr + (flags ||| pagePresent) < 2 ^ 32 := by omega
  have hmod : (addr + (flags ||| pagePresent)) % 2 ^ 12 = flags ||| pagePresent := by omega
  have hlow' : ∀ {flags}, flags < 8 → flags &&& pageWrite ≠ 0 →
      (flags ||| pagePresent) &&& pagePresent ≠ 0 ∧
        (flags ||| pagePresent) &&& pageWrite ≠ 0 := by decide
  rw [heq]
  refine ⟨hlt', ?_, ?_, ?_⟩
  · rw [frame_eq hlt']
    omega
  · rw [IsPresent, and_low (by decide), hmod]
    exact (hlow' hflags hwrite).1
  · rw [IsWritable, and_low (by decide), hmod]
    exact (hlow' hflags hwrite).2

theorem Machine.lookup_congr (hpde : m'.pde i = m.pde i)
    (hpte : IsPresent (m.pde i) → m'.pte i j = m.pte i j) : m'.lookup i j = m.lookup i j := by
  rw [lookup, lookup, hpde]
  by_cases hp : IsPresent (m.pde i)
  · rw [hpte hp]
  · rw [if_neg fun h ↦ hp h.1, if_neg fun h ↦ hp h.1]

/-- The entries of a table of zeros are zero. -/
theorem Machine.pte_of_zero (hframe : frame (m.pde i) = addr)
    (hzero : ∀ k < 4096, m.mem (addr + k) = 0) (hj : j < 1024) : m.pte i j = 0 := by
  have hbyte : ∀ b < 4, (m.mem.drop (addr + 4 * j)) b = 0 := by
    intro b hb
    rw [Bytes.drop_apply, Nat.add_assoc]
    exact hzero _ (by omega)
  rw [Machine.pte, hframe, Machine.word, Bytes.word, hbyte 0 (by decide), hbyte 1 (by decide),
    hbyte 2 (by decide), hbyte 3 (by decide)]
  rfl

/-- Writing an entry of the directory that leads to an unused frame. -/
theorem SelfMapped.setEntry (hm : SelfMapped m) (hi : i < 1023) (hentry : entry < 2 ^ 32)
    (hwritable : IsWritable entry) (hunused : Unused m (frame entry)) :
    ∃ m', writeWord m (pageDirectory + 4 * i) entry = .ok m' ∧ SelfMapped m' ∧
      m'.pde i = entry ∧ (∀ {k}, k < 1024 → k ≠ i → m'.pde k = m.pde k) ∧
      ∀ {k l}, k < 1023 → k ≠ i → IsPresent (m.pde k) → l < 1024 → m'.pte k l = m.pte k l := by
  obtain ⟨m', hw, hcr3, hc, hself, hother⟩ :=
    (hm.shown (by decide) hm.present).writeWord (by decide) (Nat.lt_succ_of_lt hi) hentry
  rw [hm.self] at hc hself hother
  have hpde : m'.pde i = entry := by
    rw [Machine.pde, hc.dir]
    exact hself
  have hpde' : ∀ {k}, k < 1024 → k ≠ i → m'.pde k = m.pde k := by
    intro k _ hk
    rw [Machine.pde, hc.dir]
    exact hother k hk
  exact ⟨m', hw, hm.install (hcr3 ▸ hm.cr3_lt) hc.dir hi hpde hwritable hunused hpde', hpde,
    hpde', fun hk hki hp hl ↦
      hc.pte hm.dir_dvd (hpde' (Nat.lt_succ_of_lt hk) hki) (hm.apart hk hp) hl⟩

/-- Clearing a table where the directory shows it. -/
theorem SelfMapped.clearTable (hm : SelfMapped m) (hi : i < 1023) (hp : IsPresent (m.pde i)) :
    ∃ m', memset m (pageTable i) 0 pageTableBytes = .ok m' ∧ SelfMapped m' ∧
      (∀ {k}, k < 1024 → m'.pde k = m.pde k) ∧ (∀ {l}, l < 1024 → m'.pte i l = 0) ∧
      ∀ {k l}, k < 1023 → k ≠ i → IsPresent (m.pde k) → l < 1024 → m'.pte k l = m.pte k l := by
  have hi' : i < 1024 := by omega
  have hne : m.dir ≠ frame (m.pde i) := (hm.apart hi hp).symm
  obtain ⟨m', hset, hcr3, hc, hzero⟩ :=
    (hm.shown hi' hp).memset hi' hm.dir_dvd hne (Nat.le_refl 4096)
  have hpde : ∀ {k}, k < 1024 → m'.pde k = m.pde k :=
    fun hk ↦ hc.pde (m.frame_pde_dvd i) hm.dir_dvd hne hk
  refine ⟨m', hset, hm.congr (hcr3 ▸ hm.cr3_lt) hc.dir hpde, hpde,
    Machine.pte_of_zero (congrArg frame (hpde hi')) hzero, fun hk hki hpk hl ↦ ?_⟩
  refine hc.pte (m.frame_pde_dvd i) (hpde (Nat.lt_succ_of_lt hk)) (fun heq ↦ hki ?_) hl
  exact hm.distinct hk hi hpk hp heq

/-- **A directory entry gets a table**, and no page gets or loses a frame. -/
theorem ensureTable_ok {flags : Nat} (hm : SelfMapped m) (hi : i < 1023) (hflags : flags < 8)
    (hwrite : flags &&& pageWrite ≠ 0) (hframe : ¬ IsPresent (m.pde i) →
      ∃ addr pages, allocatePage m.pages = .ok (addr, pages) ∧ Unused m addr) :
    ∃ m', ensureTable m i flags = .ok (true, m') ∧ SelfMapped m' ∧ IsPresent (m'.pde i) ∧
      ∀ {k j}, k < 1023 → j < 1024 → m'.lookup k j = m.lookup k j := by
  have hi' : i < 1024 := by omega
  by_cases hp : IsPresent (m.pde i)
  · refine ⟨m, ?_, hm, hp, fun _ _ ↦ rfl⟩
    rw [ensureTable, hm.readWord hi', ok_bind, if_neg hp]
  · obtain ⟨addr, pages, halloc, hunused⟩ := hframe hp
    obtain ⟨hentry, hframe, hpresent, hwritable⟩ :=
      entry_facts hunused.aligned hunused.lt hflags hwrite
    have haddr : addr &&& frameMask = addr := by
      obtain ⟨x, rfl⟩ := hunused.aligned
      have heq := frame_eq hunused.lt
      rw [Nat.mul_div_cancel_left x (by decide)] at heq
      exact heq
    have hm₀ : SelfMapped { m with pages := pages } := hm.congr hm.cr3_lt rfl fun _ ↦ rfl
    have hunused₀ : Unused { m with pages := pages } addr :=
      ⟨hunused.aligned, hunused.lt, hunused.pos, hunused.ne_dir, hunused.ne_table⟩
    -- the entry of the directory is written, `cr3` loaded, and the table cleared
    obtain ⟨m₁, hw₁, hm₁, hpde₁, hpde₁', hpte₁⟩ :=
      hm₀.setEntry hi hentry hwritable (hframe.symm ▸ hunused₀)
    obtain ⟨m₂, hl₂, hm₂, hpde₂, hpte₂⟩ := hm₁.loadCr3
    have hpresent₂ : IsPresent (m₂.pde i) := by
      rw [hpde₂, hpde₁]
      exact hpresent
    obtain ⟨m₃, hset₃, hm₃, hpde₃, hzero₃, hpte₃⟩ := hm₂.clearTable hi hpresent₂
    refine ⟨m₃, ?_, hm₃, ?_, fun {k j} hk hj ↦ ?_⟩
    · rw [ensureTable, hm.readWord hi', ok_bind, if_pos (not_not.mp hp), createPageTable, halloc]
      simp only [ok_bind, hunused.pos.ne', if_false, haddr]
      rw [hw₁, ok_bind, hl₂, ok_bind, hset₃, ok_bind]
    · rw [hpde₃ hi']
      exact hpresent₂
    · by_cases hki : k = i
      · -- the new table is empty
        subst hki
        rw [Machine.lookup, Machine.lookup, if_neg, if_neg fun h ↦ hp h.1]
        rw [hzero₃ hj]
        exact fun h ↦ h.2 rfl
      · have hk' : k < 1024 := by omega
        have hpde : m₂.pde k = m.pde k := by
          rw [hpde₂, hpde₁' hk' hki]
          rfl
        refine Machine.lookup_congr ((hpde₃ hk').trans hpde) fun hpk ↦ ?_
        rw [hpte₃ hk hki (hpde.symm ▸ hpk) hj, hpte₂, hpte₁ hk hki hpk hj]
        rfl

theorem loadCr3_pages (h : loadCr3 m = .ok m') : m'.pages = m.pages := by
  simp only [loadCr3, bind_eq_ok] at h
  obtain ⟨dir, -, h⟩ := h
  cases h
  rfl

theorem writeWord_pages {addr word : Nat} (h : writeWord m addr word = .ok m') :
    m'.pages = m.pages := by
  simp only [writeWord, bind_eq_ok] at h
  obtain ⟨phys, -, h⟩ := h
  cases h
  rfl

/-- Once there is a table, `map_page` writes one entry of it. -/
theorem SelfMapped.mapPage_eq {p v flags : Nat} {m₁ : Machine} (hm₁ : SelfMapped m₁)
    (hi : v >>> 22 < 1023) (hp : 4096 ∣ p) (hplt : p < 2 ^ 32) (hflags : flags < 8)
    (hwrite : flags &&& pageWrite ≠ 0) (hensure : ensureTable m (v >>> 22) flags = .ok (true, m₁))
    (hpresent : IsPresent (m₁.pde (v >>> 22)))
    (habsent : ¬ IsPresent (m₁.pte (v >>> 22) (v >>> 12 &&& 0x3FF))) :
    ∃ m', mapPage m p v flags = .ok (0, m') ∧ SelfMapped m' ∧ m'.pages = m₁.pages ∧
      (∀ {k}, k < 1024 → m'.pde k = m₁.pde k) ∧
      m'.pte (v >>> 22) (v >>> 12 &&& 0x3FF) = p ||| flags ||| pagePresent ∧
      ∀ {k l}, k < 1023 → l < 1024 → IsPresent (m₁.pde k) →
        (k, l) ≠ (v >>> 22, v >>> 12 &&& 0x3FF) → m'.pte k l = m₁.pte k l := by
  have hj : v >>> 12 &&& 0x3FF < 1024 := Nat.lt_succ_of_le Nat.and_le_right
  generalize hiv : v >>> 22 = i at *
  generalize hjv : v >>> 12 &&& 0x3FF = j at *
  have hi' : i < 1024 := by omega
  obtain ⟨hentry, -⟩ := entry_facts hp hplt hflags hwrite
  have hs₁ := hm₁.shown hi' hpresent
  obtain ⟨m₂, hw₂, hcr3₂, hc₂, hself₂, hother₂⟩ := hs₁.writeWord hi' hj hentry
  have hpde₂ : ∀ {k}, k < 1024 → m₂.pde k = m₁.pde k := fun hk ↦
    hc₂.pde (m₁.frame_pde_dvd i) hm₁.dir_dvd (hm₁.apart hi hpresent).symm hk
  have hm₂ : SelfMapped m₂ := hm₁.congr (hcr3₂ ▸ hm₁.cr3_lt) hc₂.dir hpde₂
  obtain ⟨m₃, hl₃, hm₃, hpde₃, hpte₃⟩ := hm₂.loadCr3
  refine ⟨m₃, ?_, hm₃, ?_, fun hk ↦ (hpde₃ _).trans (hpde₂ hk), ?_, fun {k l} hk hl hpk hne ↦ ?_⟩
  · have hmask : flags &&& 0xFFF = flags := by
      have htwelve : (0xFFF : Nat) = 2 ^ 12 - 1 := rfl
      rw [htwelve, Nat.and_two_pow_sub_one_eq_mod]
      exact Nat.mod_eq_of_lt (lt_trans hflags (by decide))
    simp only [mapPage, hiv, hjv, hensure, ok_bind, Bool.true_eq_false, if_false,
      hs₁.readWord hi' hj, if_neg (not_not.mpr (not_not.mp habsent)), hmask]
    rw [hw₂, ok_bind, hl₃, ok_bind]
  · rw [loadCr3_pages hl₃, writeWord_pages hw₂]
  · rw [hpte₃, Machine.pte, hpde₂ hi']
    exact hself₂
  · rw [hpte₃]
    by_cases hki : k = i
    · subst hki
      rw [Machine.pte, hpde₂ hi']
      exact hother₂ l fun hlj ↦ hne (by rw [hlj])
    · refine hc₂.pte (m₁.frame_pde_dvd i) (hpde₂ (Nat.lt_succ_of_lt hk)) (fun heq ↦ hki ?_) hl
      exact hm₁.distinct hk hi hpk hpresent heq

/-- **A page gets a frame**, and no other page gets or loses one. -/
theorem mapPage_ok {p v flags : Nat} (hm : SelfMapped m) (hi : v >>> 22 < 1023)
    (hnew : m.lookup (v >>> 22) (v >>> 12 &&& 0x3FF) = none) (hp : 4096 ∣ p) (hplt : p < 2 ^ 32)
    (hflags : flags < 8) (hwrite : flags &&& pageWrite ≠ 0)
    (hframe : ¬ IsPresent (m.pde (v >>> 22)) →
      ∃ addr pages, allocatePage m.pages = .ok (addr, pages) ∧ Unused m addr) :
    ∃ m', mapPage m p v flags = .ok (0, m') ∧ SelfMapped m' ∧
      (∃ pde, IsWritable pde ∧ m'.lookup (v >>> 22) (v >>> 12 &&& 0x3FF) =
        some (pde, p ||| flags ||| pagePresent)) ∧
      ∀ {k l}, k < 1023 → l < 1024 → (k, l) ≠ (v >>> 22, v >>> 12 &&& 0x3FF) →
        m'.lookup k l = m.lookup k l := by
  have hj : v >>> 12 &&& 0x3FF < 1024 := Nat.lt_succ_of_le Nat.and_le_right
  obtain ⟨m₁, hensure, hm₁, hpresent, hlook₁⟩ := ensureTable_ok hm hi hflags hwrite hframe
  have habsent : ¬ IsPresent (m₁.pte (v >>> 22) (v >>> 12 &&& 0x3FF)) := by
    intro hpte
    rw [← hlook₁ hi hj, Machine.lookup, if_pos ⟨hpresent, hpte⟩] at hnew
    cases hnew
  obtain ⟨-, -, hpresent', -⟩ := entry_facts hp hplt hflags hwrite
  obtain ⟨m', hmap, hm', -, hpde, hself, hother⟩ :=
    hm₁.mapPage_eq hi hp hplt hflags hwrite hensure hpresent habsent
  have hi' : v >>> 22 < 1024 := by omega
  refine ⟨m', hmap, hm', ⟨m₁.pde (v >>> 22), hm₁.writable hi' hpresent, ?_⟩,
    fun {k l} hk hl hne ↦ ?_⟩
  · rw [Machine.lookup, hself, hpde hi', if_pos ⟨hpresent, hpresent'⟩]
  · rw [← hlook₁ hk hl]
    exact Machine.lookup_congr (hpde (by omega)) fun hpk ↦ hother hk hl hpk hne

/-! ## Addresses -/

/-- What `get_physaddr` finds. -/
theorem SelfMapped.getPhysaddr (hm : SelfMapped m) {v : Nat} (hv : v >>> 22 < 1023) :
    (getPhysaddr m v).toOption = (m.lookup (v >>> 22) (v >>> 12 &&& 0x3FF)).map
      fun e ↦ frame e.2 + (v &&& 0xFFF) := by
  have hj : v >>> 12 &&& 0x3FF < 1024 := Nat.lt_succ_of_le Nat.and_le_right
  have hi' : v >>> 22 < 1024 := by omega
  simp only [Page.getPhysaddr, hm.readWord hi', ok_bind]
  by_cases hp : IsPresent (m.pde (v >>> 22))
  · rw [if_neg hp, (hm.shown hi' hp).readWord hi' hj, ok_bind]
    by_cases hp' : IsPresent (m.pte (v >>> 22) (v >>> 12 &&& 0x3FF))
    · rw [if_neg hp', Machine.lookup, if_pos ⟨hp, hp'⟩]
      rfl
    · rw [if_pos (not_not.mp hp'), Machine.lookup, if_neg fun h ↦ hp' h.2]
      rfl
  · rw [if_pos (not_not.mp hp), Machine.lookup, if_neg fun h ↦ hp h.1]
    rfl

/-- The two entries that the processor reads. -/
theorem translate_eq (m : Machine) (v : Nat) (write : Bool) :
    translate m v write = if denies (m.pde (v >>> 22)) write then .error .fault
      else if denies (m.pte (v >>> 22) (v >>> 12 &&& 0x3FF)) write then .error .fault
      else .ok (frame (m.pte (v >>> 22) (v >>> 12 &&& 0x3FF)) + (v &&& 0xFFF)) := rfl

/-- A store outside the tables changes no translation. -/
theorem ChangesOnly.translate (h : ChangesOnly m m' addr) (haddr : 4096 ∣ addr)
    (hdir : 4096 ∣ m.dir) (hne : m.dir ≠ addr) {v : Nat} (hv : v >>> 22 < 1024)
    (htable : frame (m.pde (v >>> 22)) ≠ addr) (write : Bool) :
    translate m' v write = translate m v write := by
  have hj : v >>> 12 &&& 0x3FF < 1024 := Nat.lt_succ_of_le Nat.and_le_right
  have hpde := h.pde haddr hdir hne hv
  rw [translate_eq, translate_eq, h.pte haddr hpde htable hj, hpde]

/-- What the processor uses. -/
theorem translate_toOption (m : Machine) (v : Nat) (write : Bool) :
    (translate m v write).toOption = (m.lookup (v >>> 22) (v >>> 12 &&& 0x3FF)).bind fun e ↦
      if denies e.1 write || denies e.2 write then none
      else some (frame e.2 + (v &&& 0xFFF)) := by
  have hdenies : ∀ {entry}, ¬ IsPresent entry → denies entry write = true := by
    intro entry hno
    rw [denies, beq_iff_eq.mpr (not_not.mp hno), Bool.true_or]
  rw [translate_eq]
  by_cases hp : IsPresent (m.pde (v >>> 22))
  · by_cases hp' : IsPresent (m.pte (v >>> 22) (v >>> 12 &&& 0x3FF))
    · have hlook : m.lookup (v >>> 22) (v >>> 12 &&& 0x3FF) = some _ := if_pos ⟨hp, hp'⟩
      rw [hlook, Option.bind_some]
      cases denies (m.pde (v >>> 22)) write with
      | true => rfl
      | false =>
          cases denies (m.pte (v >>> 22) (v >>> 12 &&& 0x3FF)) write with
          | true => rfl
          | false => rfl
    · have hlook : m.lookup (v >>> 22) (v >>> 12 &&& 0x3FF) = none := if_neg fun h ↦ hp' h.2
      rw [hlook, hdenies hp', if_pos rfl, ite_self]
      rfl
  · have hlook : m.lookup (v >>> 22) (v >>> 12 &&& 0x3FF) = none := if_neg fun h ↦ hp h.1
    rw [hlook, hdenies hp, if_pos rfl]
    rfl

/-- The page that an address lies in. -/
theorem page_indices {v o : Nat} (hv : 4096 ∣ v) (ho : o < 4096) :
    (v + o) >>> 22 = v >>> 22 ∧ (v + o) >>> 12 &&& 0x3FF = v >>> 12 &&& 0x3FF ∧
      (v + o) &&& 0xFFF = o := by
  obtain ⟨x, rfl⟩ := hv
  have htwelve : (0xFFF : Nat) = 2 ^ 12 - 1 := rfl
  have hpage : (4096 * x + o) / 2 ^ 12 = 4096 * x / 2 ^ 12 := by omega
  rw [htwelve, Nat.and_two_pow_sub_one_eq_mod]
  simp only [Nat.shiftRight_eq_div_pow, hpage]
  exact ⟨by omega, trivial, by omega⟩

/-- Where the addresses of a page are found. -/
theorem translate_page {v : Nat} (hv : 4096 ∣ v) (ho : o < 4096)
    (hpde : IsPresent (m.pde (v >>> 22)) ∧ IsWritable (m.pde (v >>> 22)))
    (hpte : IsPresent entry ∧ IsWritable entry)
    (hentry : m.pte (v >>> 22) (v >>> 12 &&& 0x3FF) = entry) (write : Bool) :
    translate m (v + o) write = .ok (frame entry + o) := by
  obtain ⟨h₁, h₂, h₃⟩ := page_indices hv ho
  rw [translate_eq, h₁, h₂, h₃, hentry, denies_eq_false hpde.1 hpde.2,
    denies_eq_false hpte.1 hpte.2]
  rfl

/-- Two addresses with the same indices lie in one page. -/
theorem page_eq {v v' : Nat} (hi : v >>> 22 = v' >>> 22)
    (hj : v >>> 12 &&& 0x3FF = v' >>> 12 &&& 0x3FF) : v / 4096 = v' / 4096 := by
  have hten : (0x3FF : Nat) = 2 ^ 10 - 1 := rfl
  rw [hten, Nat.and_two_pow_sub_one_eq_mod, Nat.and_two_pow_sub_one_eq_mod,
    Nat.shiftRight_eq_div_pow, Nat.shiftRight_eq_div_pow] at hj
  rw [Nat.shiftRight_eq_div_pow, Nat.shiftRight_eq_div_pow] at hi
  omega

end

/-- **`map_page` maps one page.**  For every state of the tables with the directory as its own
last entry, writable entries and tables in frames of their own, and every page and frame of
which the page is not mapped: afterwards the code and the processor find the addresses of the
page in the frame, and every other page of the first 1023 tables where it was, if anywhere. -/
theorem mapPage_maps {m : Machine} {p v flags : Nat} (hm : SelfMapped m) (hv : 4096 ∣ v)
    (hi : v >>> 22 < 1023) (hp : 4096 ∣ p) (hplt : p < 2 ^ 32)
    (hnew : ¬ ∃ phys, getPhysaddr m v = .ok phys) (hflags : flags < 8)
    (hwrite : flags &&& pageWrite ≠ 0) (hframe : ¬ IsPresent (m.pde (v >>> 22)) →
      ∃ addr pages, allocatePage m.pages = .ok (addr, pages) ∧ Unused m addr) :
    ∃ m', mapPage m p v flags = .ok (0, m') ∧
      (∀ o < 4096, getPhysaddr m' (v + o) = .ok (p + o) ∧
        ∀ write, translate m' (v + o) write = .ok (p + o)) ∧
      ∀ v', v' >>> 22 < 1023 → v' / 4096 ≠ v / 4096 →
        (getPhysaddr m' v').toOption = (getPhysaddr m v').toOption ∧
        ∀ write, (translate m' v' write).toOption = (translate m v' write).toOption := by
  have hlook : m.lookup (v >>> 22) (v >>> 12 &&& 0x3FF) = none := by
    by_contra hne
    obtain ⟨e, he⟩ := Option.ne_none_iff_exists'.mp hne
    have hfound := hm.getPhysaddr hi
    rw [he, Option.map_some] at hfound
    exact hnew ⟨_, toOption_eq_some.mp hfound⟩
  obtain ⟨m', hmap, hm', ⟨pde, hwritable, hself⟩, hother⟩ :=
    mapPage_ok hm hi hlook hp hplt hflags hwrite hframe
  obtain ⟨-, hframe', hpresent', hwritable'⟩ := entry_facts hp hplt hflags hwrite
  have hpresent : IsPresent pde := by
    rw [Machine.lookup] at hself
    split at hself
    · rename_i h
      obtain ⟨rfl, -⟩ := Prod.mk.inj (Option.some.inj hself)
      exact h.1
    · cases hself
  refine ⟨m', hmap, fun o ho ↦ ?_, fun v' hv' hne ↦ ?_⟩
  · obtain ⟨h₁, h₂, h₃⟩ := page_indices hv ho
    constructor
    · apply toOption_eq_some.mp
      rw [hm'.getPhysaddr (h₁.symm ▸ hi), h₁, h₂, h₃, hself, Option.map_some, hframe']
    · intro write
      apply toOption_eq_some.mp
      rw [translate_toOption, h₁, h₂, h₃, hself, Option.bind_some,
        denies_eq_false hpresent hwritable, denies_eq_false hpresent' hwritable', hframe']
      rfl
  · have hsame : m'.lookup (v' >>> 22) (v' >>> 12 &&& 0x3FF) =
        m.lookup (v' >>> 22) (v' >>> 12 &&& 0x3FF) := by
      refine hother hv' (Nat.lt_succ_of_le Nat.and_le_right) fun heq ↦ hne ?_
      obtain ⟨h₁, h₂⟩ := Prod.mk.inj heq
      exact page_eq h₁ h₂
    constructor
    · rw [hm'.getPhysaddr hv', hm.getPhysaddr hv', hsame]
    · intro write
      rw [translate_toOption, translate_toOption, hsame]

/-- Memory with a directory at 0x101000 and, behind it, an empty table as its entry 1. -/
def twoTables : Machine where
  mem := (Bytes.splice (fun _ ↦ 0) 0x101004 (Bytes.ofWord 0x102003)).splice 0x101FFC
    (Bytes.ofWord 0x101003)
  cr3 := 0x101000
  pages := .zero

theorem twoTables_selfMapped : SelfMapped twoTables := by
  have hentries : ∀ i < 1024, IsPresent (twoTables.pde i) → i = 1 ∨ i = 1023 := by
    decide +kernel
  constructor
  · decide
  · decide
  · rfl
  · intro i hi hp
    rcases hentries i hi hp with rfl | rfl
    · decide
    · decide
  · intro i hi hp
    rcases hentries i (by omega) hp with rfl | rfl
    · decide
    · omega
  · intro i j hi hj hpi hpj _
    rcases hentries i (by omega) hpi with rfl | rfl
    · rcases hentries j (by omega) hpj with rfl | rfl
      · rfl
      · omega
    · omega

/-- The page of the heap is mapped to the frame at the same address. -/
theorem mapPage_maps_heap : ∃ m', mapPage twoTables 0x400000 0x400000 6 = .ok (0, m') ∧
    (∀ o < 4096, getPhysaddr m' (0x400000 + o) = .ok (0x400000 + o) ∧
      ∀ write, translate m' (0x400000 + o) write = .ok (0x400000 + o)) ∧
    ∀ v', v' >>> 22 < 1023 → v' / 4096 ≠ 0x400000 / 4096 →
      (getPhysaddr m' v').toOption = (getPhysaddr twoTables v').toOption ∧
      ∀ write, (translate m' v' write).toOption = (translate twoTables v' write).toOption := by
  have habsent : getPhysaddr twoTables 0x400000 = .error (.panic "Page not present") := by decide
  refine mapPage_maps twoTables_selfMapped (by decide) (by decide) (by decide) (by decide) ?_
    (by decide) (by decide) fun hno ↦ absurd (by decide) hno
  rintro ⟨phys, h⟩
  rw [habsent] at h
  cases h

end Yorha.Page
