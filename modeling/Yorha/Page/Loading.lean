import Yorha.Page.Pool

/-!
# Loading a program

`load_process` is to give each page of a program's image a page of physical memory, and copy
the image there.  Its loop counts `i` in bytes.  But it multiplies `i` by `PAGE_SIZE` for the
address of a page, it adds `i` to a pointer to words, it goes on for one page more than the
image has, and it has the first two arguments of `map_page` the wrong way round: the page that
was handed out is the address that is mapped.

So the last page is always copied from behind the image, and wherever `load_process` returns,
the program is not loaded (`not_loaded`).
-/

namespace Yorha.Page

open Yorha.Lib Yorha.Util Yorha.Heap

/-! ## The code -/

/-- `memcpy`, byte by byte. -/
def memcpy (m : Machine) (dst src : Nat) : Nat → Except Stop Machine
  | 0 => .ok m
  | byte + 1 => do
      let m ← memcpy m dst src byte
      let phys ← translate m ((src + byte) % 2 ^ 32) false
      writeByte m ((dst + byte) % 2 ^ 32) (m.mem phys)

/-- The loop of `load_process`.  The value is whether all pages were allocated.  The list has,
for each call of `memcpy`, where in the image it begins to read; nothing of it is in the code. -/
def loadLoop (processMemory processSize baseVirtualAddress : Nat) :
    Nat → Nat → Machine → Except Stop (Bool × Machine × List Nat)
  | 0, _, _ => .error .hang
  | fuel + 1, i, m =>
      if i < (processSize + pageSize) % 2 ^ 32 then do
        let (physicalPage, pages) ← allocatePage m.pages
        let m := { m with pages := pages }
        if physicalPage = 0 then .ok (false, m, [])
        else do
          let (_, m) ← mapPage m ((baseVirtualAddress + i * pageSize) % 2 ^ 32) physicalPage
            (pageWrite ||| pageUser)
          -- `process_memory` points to words
          let m ← memcpy m physicalPage (processMemory + 4 * i) pageSize
          let (done, m, copied) ← loadLoop processMemory processSize baseVirtualAddress fuel
            ((i + pageSize) % 2 ^ 32) m
          .ok (done, m, 4 * i :: copied)
      else .ok (true, m, [])

/-- Loads a program. -/
def loadProcess (m : Machine) (processMemory processSize baseVirtualAddress fuel : Nat) :
    Except Stop (Bool × Machine × List Nat) :=
  loadLoop processMemory processSize baseVirtualAddress fuel 0 m

/-! ## What it is for -/

/-- The number of pages that an image of this size has. -/
def imagePages (processSize : Nat) : Nat := (processSize + (pageSize - 1)) / pageSize

/-- The image is where it should be, in pages that were not handed out before, and only the
image's pages were read. -/
structure Loaded (m m' : Machine) (processMemory processSize base : Nat) (copied : List Nat) :
    Prop where
  holds : ∀ k < processSize, ∃ src dst,
    translate m ((processMemory + k) % 2 ^ 32) false = .ok src ∧
      translate m' ((base + k) % 2 ^ 32) false = .ok dst ∧ m'.mem dst = m.mem src
  backed : ∃ page : Nat → Nat,
    (∀ n < imagePages processSize, page n ∉ m.pages.livePages ∧ page n ∈ m'.pages.livePages ∧
      ∀ o < pageSize,
        translate m' ((base + (n * pageSize + o)) % 2 ^ 32) false = .ok (page n + o)) ∧
    ∀ n < imagePages processSize, ∀ n' < imagePages processSize, page n = page n' → n = n'
  reads : ∀ offset ∈ copied, ∀ o < pageSize, offset + o < imagePages processSize * pageSize

section

variable {m m' : Machine} {processMemory processSize base fuel n : Nat} {done : Bool}
  {copied : List Nat}

/-- **The loop comes to the page behind the image**, and copies from four times as far. -/
theorem mem_copied (hsize : processSize + pageSize < 2 ^ 32) (hn : n ≤ imagePages processSize)
    (h : loadLoop processMemory processSize base fuel (n * pageSize) m = .ok (true, m', copied)) :
    4 * (imagePages processSize * pageSize) ∈ copied := by
  have hpages : imagePages processSize * pageSize < processSize + pageSize := by
    change (processSize + 4095) / 4096 * 4096 < processSize + 4096
    omega
  induction fuel generalizing n m copied with
  | zero => cases h
  | succ fuel ih =>
      have hlt : n * pageSize < (processSize + pageSize) % 2 ^ 32 := by
        rw [Nat.mod_eq_of_lt hsize]
        exact lt_of_le_of_lt (Nat.mul_le_mul_right _ hn) hpages
      rw [loadLoop, if_pos hlt] at h
      simp only [bind_eq_ok, Prod.exists] at h
      obtain ⟨p, pages, -, h⟩ := h
      split at h
      · cases h
      · simp only [bind_eq_ok, Prod.exists] at h
        obtain ⟨r, m₁, -, m₂, -, done, m₃, rest, hrest, h⟩ := h
        cases h
        rcases Nat.eq_or_lt_of_le hn with rfl | hlt'
        · exact List.mem_cons_self
        · have hnext : (n * pageSize + pageSize) % 2 ^ 32 = (n + 1) * pageSize := by
            rw [Nat.succ_mul]
            refine Nat.mod_eq_of_lt ?_
            have hle := Nat.mul_le_mul_right pageSize hlt'
            rw [Nat.succ_mul] at hle
            omega
          rw [hnext] at hrest
          exact List.mem_cons_of_mem _ (ih hlt' hrest)

/-- Where one address of a page is not found, none is. -/
theorem translate_fault {v o : Nat} (hv : 4096 ∣ v) (ho : o < 4096)
    (h : translate m v false = .error .fault) : translate m (v + o) false = .error .fault := by
  obtain ⟨h₁, h₂, -⟩ := page_indices hv ho
  rw [translate_eq] at h ⊢
  rw [h₁, h₂]
  split
  · rfl
  · rename_i hpde
    rw [if_neg hpde] at h
    split
    · rfl
    · rename_i hpte
      rw [if_neg hpte] at h
      cases h

/-- `map_page` reads the directory first. -/
theorem translate_of_mapPage {physaddr virtualaddr flags : Nat} {r : Int}
    (h : mapPage m physaddr virtualaddr flags = .ok (r, m')) :
    ∃ phys, translate m (pageDirectory + 4 * (virtualaddr >>> 22)) false = .ok phys := by
  simp only [mapPage, ensureTable, readWord, bind_eq_ok, Prod.exists] at h
  obtain ⟨done, m₁, ⟨pde, ⟨phys, hphys, -⟩, -⟩, -⟩ := h
  exact ⟨phys, hphys⟩

/-- The address of a page has 32 bits. -/
theorem allocatePage_lt {a a' : PageArray} {p : Nat} (h : allocatePage a = .ok (p, a')) :
    p < 2 ^ 32 := by
  simp only [allocatePage, bind_eq_ok, Prod.exists] at h
  obtain ⟨-, -, range, bitmap, -, h⟩ := h
  split at h
  · cases h
  · split at h
    · cases h
      exact Nat.mod_lt _ (by decide)
    · cases h

/-- With a directory that is not mapped, the loop does not get through one round. -/
theorem loadLoop_unmapped {i : Nat} (hi : i < (processSize + pageSize) % 2 ^ 32)
    (hfault : translate m pageDirectory false = .error .fault) :
    loadLoop processMemory processSize base fuel i m ≠ .ok (true, m', copied) := by
  intro h
  cases fuel with
  | zero => cases h
  | succ fuel =>
      rw [loadLoop, if_pos hi] at h
      simp only [bind_eq_ok, Prod.exists] at h
      obtain ⟨p, pages, halloc, h⟩ := h
      split at h
      · cases h
      · simp only [bind_eq_ok, Prod.exists] at h
        obtain ⟨r, m₁, hmap, -⟩ := h
        obtain ⟨phys, hphys⟩ := translate_of_mapPage hmap
        have hp := allocatePage_lt halloc
        have hindex : 4 * (p >>> 22) < 4096 := by
          rw [Nat.shiftRight_eq_div_pow]
          omega
        have hfault' : translate m (pageDirectory + 4 * (p >>> 22)) false = .error .fault :=
          translate_fault (by decide) hindex hfault
        have hphys : translate m (pageDirectory + 4 * (p >>> 22)) false = .ok phys := hphys
        rw [hfault'] at hphys
        cases hphys

end

/-- **A program is never loaded.**  For every image, size and base address whose pages are not
mapped, if `load_process` returns and every page was allocated, then bytes behind the image's
pages were read, or nothing was done at all. -/
theorem not_loaded {m m' : Machine} {processMemory processSize base fuel : Nat}
    {copied : List Nat} (hbase : base < 2 ^ 32) (haligned : pageSize ∣ base)
    (hunmapped : ∀ k < processSize, translate m ((base + k) % 2 ^ 32) false = .error .fault)
    (h : loadProcess m processMemory processSize base fuel = .ok (true, m', copied)) :
    ¬ Loaded m m' processMemory processSize base copied := by
  intro hl
  by_cases hwrap : processSize + pageSize < 2 ^ 32
  · -- the last page is copied from behind the image
    have hstart : loadLoop processMemory processSize base fuel (0 * pageSize) m =
        .ok (true, m', copied) := by
      rw [Nat.zero_mul]
      exact h
    have hread := hl.reads _ (mem_copied hwrap (Nat.zero_le _) hstart) 0 (by decide)
    omega
  · have hpage : pageSize = 4096 := rfl
    by_cases hbound : 0 < (processSize + pageSize) % 2 ^ 32
    · -- so many pages include the directory's
      obtain ⟨x, rfl⟩ := haligned
      have hx : 4096 * x < 2 ^ 32 := hbase
      have hsum : pageSize * x + (pageDirectory - pageSize * x) = pageDirectory := by
        change 4096 * x + (0xFFFFF000 - 4096 * x) = 0xFFFFF000
        omega
      have hlt : pageDirectory - pageSize * x < processSize := by
        change 0xFFFFF000 - 4096 * x < processSize
        omega
      have hfault := hunmapped _ hlt
      rw [hsum, Nat.mod_eq_of_lt (by decide)] at hfault
      exact loadLoop_unmapped hbound hfault h
    · -- the bound is zero, and nothing is mapped
      cases fuel with
      | zero => cases h
      | succ fuel =>
          rw [loadProcess, loadLoop, if_neg hbound] at h
          cases h
          obtain ⟨src, dst, -, hdst, -⟩ := hl.holds 0 (by omega)
          rw [hunmapped 0 (by omega)] at hdst
          cases hdst

/-! ## A run -/

section

variable {m m' : Machine} {live : List Nat} {g dst src n : Nat}

/-- **Copying to a frame without tables** returns, and writes nothing else. -/
theorem SelfMapped.memcpy (hm : SelfMapped m) (hg : 4096 ∣ g)
    (htables : ∀ {i}, i < 1024 → IsPresent (m.pde i) → frame (m.pde i) ≠ g)
    (hsrc : ∀ o < n, ∃ phys, translate m ((src + o) % 2 ^ 32) false = .ok phys)
    (hdst : ∀ o < n, translate m ((dst + o) % 2 ^ 32) true = .ok (g + o)) (hn : n ≤ 4096) :
    ∃ m', Page.memcpy m dst src n = .ok m' ∧ m'.cr3 = m.cr3 ∧ m'.pages = m.pages ∧
      ChangesOnly m m' g := by
  have hdir : m.dir ≠ g := hm.self ▸ htables (by decide) hm.present
  induction n with
  | zero => exact ⟨m, rfl, rfl, rfl, ChangesOnly.refl m g⟩
  | succ n ih =>
      obtain ⟨m₁, hcopy, hcr3, hpages, hc⟩ := ih (fun o ho ↦ hsrc o (Nat.lt_succ_of_lt ho))
        (fun o ho ↦ hdst o (Nat.lt_succ_of_lt ho)) (Nat.le_of_succ_le hn)
      have hsame : ∀ {v write phys}, v < 2 ^ 32 → translate m v write = .ok phys →
          translate m₁ v write = .ok phys := by
        intro v write phys hv h
        have hi : v >>> 22 < 1024 := by
          rw [Nat.shiftRight_eq_div_pow]
          omega
        rw [hc.translate hg hm.dir_dvd hdir hi (htables hi ?_), h]
        intro hp
        rw [translate_eq, denies, hp] at h
        cases h
      obtain ⟨phys, hphys⟩ := hsrc n (Nat.lt_succ_self n)
      refine ⟨{ m₁ with mem := m₁.mem.splice (g + n) [m₁.mem phys] }, ?_, hcr3, hpages,
        hc.trans ⟨rfl, fun a ha ↦ ?_⟩⟩
      · rw [Page.memcpy, hcopy, ok_bind, hsame (Nat.mod_lt _ (by decide)) hphys, ok_bind, writeByte,
          hsame (Nat.mod_lt _ (by decide)) (hdst n (Nat.lt_succ_self n)), ok_bind]
      · apply Bytes.splice_of_notMem
        rw [List.length_singleton]
        omega

end

/-- The directory at 0x101000, an empty table as its entry 1, and a table as its entry 0 that
maps two pages of an image at 0x200000. -/
def loaderMachine : Machine where
  mem := ((twoTables.mem.splice 0x101000 (Bytes.ofWord 0x103003)).splice 0x103800
    (Bytes.ofWord 0x200003)).splice 0x103810 (Bytes.ofWord 0x204003)
  cr3 := 0x101000
  pages := .zero

/-- Behind the five entries there are zeros. -/
theorem loaderMachine_mem {a : Nat} (hdir : ¬ (0x101000 ≤ a ∧ a < 0x101008))
    (hlast : ¬ (0x101FFC ≤ a ∧ a < 0x102000)) (htable : ¬ (0x103800 ≤ a ∧ a < 0x103814)) :
    loaderMachine.mem a = 0 := by
  have hword : ∀ {m : Bytes} {off n : Nat}, ¬ (off ≤ a ∧ a < off + 4) →
      m.splice off (Bytes.ofWord n) a = m a := by
    intro m off n h
    apply Bytes.splice_of_notMem
    rwa [Bytes.length_ofWord]
  simp only [loaderMachine, twoTables]
  rw [hword (by omega), hword (by omega), hword (by omega), hword (by omega), hword (by omega)]

theorem loaderMachine_entries : ∀ i < 1023, IsPresent (loaderMachine.pde i) → i = 0 ∨ i = 1 := by
  intro i hi hp
  by_contra hne
  have hdir : loaderMachine.dir = 0x101000 := by decide
  have hbyte : ∀ b < 4, (loaderMachine.mem.drop (loaderMachine.dir + 4 * i)) b = 0 := by
    intro b hb
    rw [Bytes.drop_apply, hdir]
    exact loaderMachine_mem (by omega) (by omega) (by omega)
  have hzero : loaderMachine.pde i = Bytes.word fun _ ↦ 0 := Bytes.word_congr hbyte
  rw [hzero] at hp
  exact hp rfl

theorem loaderMachine_selfMapped : SelfMapped loaderMachine := by
  constructor
  · decide
  · decide
  · rfl
  · intro i hi hp
    by_cases hlast : i = 1023
    · subst hlast
      decide
    · rcases loaderMachine_entries i (by omega) hp with rfl | rfl
      · decide
      · decide
  · intro i hi hp
    rcases loaderMachine_entries i hi hp with rfl | rfl
    · decide
    · decide
  · intro i j hi hj hpi hpj
    rcases loaderMachine_entries i hi hpi with rfl | rfl
    · rcases loaderMachine_entries j hj hpj with rfl | rfl
      · exact fun _ ↦ rfl
      · exact fun h ↦ absurd h (by decide)
    · rcases loaderMachine_entries j hj hpj with rfl | rfl
      · exact fun h ↦ absurd h (by decide)
      · exact fun _ ↦ rfl

/-- The tables during the run: the pages that were handed out are mapped. -/
structure Loading (m : Machine) (live : List Nat) : Prop where
  tables : SelfMapped m
  pages : PageInv m.pages live
  dir : m.dir = 0x101000
  entries : ∀ i < 1023, IsPresent (m.pde i) → i = 0 ∨ i = 1
  image : m.pde 0 = 0x103003 ∧ m.pte 0 0x200 = 0x200003 ∧ m.pte 0 0x204 = 0x204003
  pool : m.pde 1 = 0x102003
  taken : ∀ j < 1024, IsPresent (m.pte 1 j) → 0x400000 + 4096 * j ∈ live

theorem loading_start {pages : PageArray} (hclaim : claimKernel .zero = .ok pages) :
    Loading { loaderMachine with pages := pages } [] := by
  have hempty : ∀ j < 1024, ¬ IsPresent (loaderMachine.pte 1 j) := by
    intro j hj
    have hframe : frame (loaderMachine.pde 1) = 0x102000 := by decide
    rw [Machine.pte_of_zero hframe
      (fun k hk ↦ loaderMachine_mem (by omega) (by omega) (by omega)) hj]
    exact fun h ↦ h rfl
  have himage : loaderMachine.pde 0 = 0x103003 ∧ loaderMachine.pte 0 0x200 = 0x200003 ∧
      loaderMachine.pte 0 0x204 = 0x204003 := by decide
  have hpool : loaderMachine.pde 1 = 0x102003 := by decide
  have hdir : loaderMachine.dir = 0x101000 := by decide
  exact ⟨loaderMachine_selfMapped.congr loaderMachine_selfMapped.cr3_lt rfl fun _ ↦ rfl,
    claimKernel_inv hclaim, hdir, loaderMachine_entries, himage, hpool,
    fun j hj hp ↦ absurd hp (hempty j hj)⟩

section

variable {m m' : Machine} {live : List Nat} {phys src slot : Nat}

/-- No table is where a page is mapped to. -/
theorem Loading.tables_ne (h : Loading m live) (hphys : 0x800000 ≤ phys) {i : Nat}
    (hi : i < 1024) (hp : IsPresent (m.pde i)) : frame (m.pde i) ≠ phys := by
  have hdir := h.dir
  have hself := h.tables.self
  by_cases hlast : i = 1023
  · subst hlast
    omega
  · rcases h.entries i (by omega) hp with rfl | rfl
    · rw [h.image.1]
      have hframe : frame 0x103003 = 0x103000 := by decide
      omega
    · rw [h.pool]
      have hframe : frame 0x102003 = 0x102000 := by decide
      omega

/-- The two pages of the image can be read. -/
theorem Loading.translate_image (h : Loading m live) (hsrc : src = 0x200000 ∨ src = 0x204000)
    {o : Nat} (ho : o < pageSize) : ∃ phys, translate m (src + o) false = .ok phys := by
  have hentry : ∃ entry, (IsPresent entry ∧ IsWritable entry) ∧ src >>> 22 = 0 ∧ 4096 ∣ src ∧
      m.pte 0 (src >>> 12 &&& 0x3FF) = entry := by
    rcases hsrc with rfl | rfl
    · exact ⟨0x200003, by decide, by decide, by decide, h.image.2.1⟩
    · exact ⟨0x204003, by decide, by decide, by decide, h.image.2.2⟩
  obtain ⟨entry, hpte, hi, hdvd, hentry⟩ := hentry
  have hpde : IsPresent (m.pde (src >>> 22)) ∧ IsWritable (m.pde (src >>> 22)) := by
    rw [hi, h.image.1]
    decide
  exact ⟨_, translate_page hdvd ho hpde hpte (hi.symm ▸ hentry) false⟩

/-- Copying to a page changes no table. -/
theorem Loading.copied (h : Loading m live) (hdvd : 4096 ∣ phys) (hphys : 0x800000 ≤ phys)
    (hcr3 : m'.cr3 = m.cr3) (hpages : m'.pages = m.pages) (hc : ChangesOnly m m' phys) :
    Loading m' live := by
  have hdir : m.dir ≠ phys := h.tables.self ▸ h.tables_ne hphys (by decide) h.tables.present
  have hpde : ∀ {i}, i < 1024 → m'.pde i = m.pde i :=
    fun hi ↦ hc.pde hdvd h.tables.dir_dvd hdir hi
  have hpte : ∀ {i j}, i < 1024 → IsPresent (m.pde i) → j < 1024 → m'.pte i j = m.pte i j :=
    fun hi hp hj ↦ hc.pte hdvd (hpde hi) (h.tables_ne hphys hi hp) hj
  have hzero : IsPresent (m.pde 0) := by
    rw [h.image.1]
    decide
  have hone : IsPresent (m.pde 1) := by
    rw [h.pool]
    decide
  refine ⟨h.tables.congr (hcr3 ▸ h.tables.cr3_lt) hc.dir hpde, hpages ▸ h.pages,
    hc.dir.trans h.dir, fun i hi ↦ ?_, ?_, ?_, fun j hj ↦ ?_⟩
  · rw [hpde (by omega)]
    exact h.entries i hi
  · rw [hpde (by decide), hpte (by decide) hzero (by decide), hpte (by decide) hzero (by decide)]
    exact h.image
  · rw [hpde (by decide)]
    exact h.pool
  · rw [hpte (by decide) hone hj]
    exact h.taken j hj

/-- The entry of a page of the pool is in the second table. -/
theorem IsPoolPage.index {p : Nat} (h : IsPoolPage p) :
    p >>> 22 = 1 ∧ 0x400000 + 4096 * (p >>> 12 &&& 0x3FF) = p := by
  obtain ⟨hdvd, hge, hlt⟩ := h
  have hten : (0x3FF : Nat) = 2 ^ 10 - 1 := rfl
  change 4096 ∣ p at hdvd
  rw [hten, Nat.and_two_pow_sub_one_eq_mod, Nat.shiftRight_eq_div_pow, Nat.shiftRight_eq_div_pow]
  omega

/-- Mapping a page that was just handed out uses an entry that was not in use. -/
theorem Loading.mapped {pages : PageArray} {p : Nat} (h : Loading m live)
    (hinv : PageInv pages (p :: live)) (hdvd : 4096 ∣ phys) (hlt : phys < 2 ^ 32) :
    ∃ m₁, mapPage { m with pages := pages } phys p (pageWrite ||| pageUser) = .ok (0, m₁) ∧
      Loading m₁ (p :: live) ∧
      ∀ o < pageSize, translate m₁ ((p + o) % 2 ^ 32) true = .ok (phys + o) := by
  have hpool : IsPoolPage p := hinv.isPoolPage List.mem_cons_self
  obtain ⟨hi, hj⟩ := hpool.index
  obtain ⟨hp, -, hlt'⟩ := hpool
  have hj' : p >>> 12 &&& 0x3FF < 1024 := Nat.lt_succ_of_le Nat.and_le_right
  have hm : SelfMapped { m with pages := pages } := h.tables.congr h.tables.cr3_lt rfl fun _ ↦ rfl
  have hpresent : IsPresent (m.pde (p >>> 22)) := by
    rw [hi, h.pool]
    decide
  have hensure : ensureTable { m with pages := pages } (p >>> 22) (pageWrite ||| pageUser) =
      .ok (true, { m with pages := pages }) := by
    rw [ensureTable, hm.readWord (by omega), ok_bind]
    exact if_neg hpresent
  have habsent : ¬ IsPresent (m.pte (p >>> 22) (p >>> 12 &&& 0x3FF)) := by
    rw [hi]
    intro hused
    have hmem := h.taken _ hj' hused
    rw [hj] at hmem
    exact (List.nodup_cons.mp hinv.nodup).1 hmem
  obtain ⟨m₁, hmap, hm₁, hpages₁, hpde₁, hself₁, hother₁⟩ :=
    hm.mapPage_eq (by omega) hdvd hlt (by decide) (by decide) hensure hpresent habsent
  obtain ⟨-, hframe, hentry⟩ := entry_facts hdvd hlt (show pageWrite ||| pageUser < 8 by decide)
    (by decide)
  rw [hi] at hself₁ hother₁ hpresent
  have hzero : IsPresent (m.pde 0) := by
    rw [h.image.1]
    decide
  have himage : ∀ {j}, j < 1024 → m₁.pte 0 j = m.pte 0 j := fun hj ↦
    hother₁ (by decide) hj hzero fun heq ↦ Nat.zero_ne_one (congrArg Prod.fst heq)
  have hload₁ : Loading m₁ (p :: live) := by
    refine ⟨hm₁, hpages₁.symm ▸ hinv, ?_, fun k hk ↦ ?_, ?_, ?_, fun l hl hused ↦ ?_⟩
    · rw [← hm₁.self, hpde₁ (by decide)]
      exact h.tables.self.trans h.dir
    · rw [hpde₁ (by omega)]
      exact h.entries k hk
    · rw [hpde₁ (by decide), himage (by decide), himage (by decide)]
      exact h.image
    · rw [hpde₁ (by decide)]
      exact h.pool
    · by_cases hlj : l = p >>> 12 &&& 0x3FF
      · rw [hlj, hj]
        exact List.mem_cons_self
      · rw [hother₁ (by decide) hl hpresent fun heq ↦ hlj (congrArg Prod.snd heq)] at hused
        exact List.mem_cons_of_mem _ (h.taken l hl hused)
  refine ⟨m₁, hmap, hload₁, fun o ho ↦ ?_⟩
  have hpde : IsPresent (m₁.pde (p >>> 22)) ∧ IsWritable (m₁.pde (p >>> 22)) := by
    rw [hi, hload₁.pool]
    decide
  rw [Nat.mod_eq_of_lt (show p + o < 2 ^ 32 from by change o < 4096 at ho; omega),
    translate_page hp ho hpde hentry (hi ▸ hself₁), hframe]

/-- **Step.**  A page is handed out, mapped, and copied to. -/
theorem Loading.step (h : Loading m live) (hslot : slot < maxAllocations)
    (hfree : (m.pages.entry slot).utilized = false) (hdvd : 4096 ∣ phys) (hlt : phys < 2 ^ 32)
    (hphys : 0x800000 ≤ phys) (hsrc : src = 0x200000 ∨ src = 0x204000) :
    ∃ p pages m₁ m', allocatePage m.pages = .ok (p, pages) ∧ p ≠ 0 ∧
      mapPage { m with pages := pages } phys p (pageWrite ||| pageUser) = .ok (0, m₁) ∧
      memcpy m₁ p src pageSize = .ok m' ∧ Loading m' (p :: live) := by
  obtain ⟨p, pages, halloc⟩ := h.pages.allocatePage_returns hslot hfree
  have hinv := h.pages.allocatePage halloc
  obtain ⟨-, hge, -⟩ := hinv.isPoolPage List.mem_cons_self
  obtain ⟨m₁, hmap, hload₁, hdst⟩ := h.mapped hinv hdvd hlt
  have hread : ∀ o < pageSize, ∃ phys, translate m₁ ((src + o) % 2 ^ 32) false = .ok phys := by
    intro o ho
    rw [Nat.mod_eq_of_lt (show src + o < 2 ^ 32 from by change o < 4096 at ho; omega)]
    exact hload₁.translate_image hsrc ho
  obtain ⟨m', hcopy, hcr3, hpages, hc⟩ :=
    hload₁.tables.memcpy hdvd (hload₁.tables_ne hphys) hread hdst le_rfl
  exact ⟨p, pages, m₁, m', halloc, by omega, hmap, hcopy,
    hload₁.copied hdvd hphys hcr3 hpages hc⟩

/-- One round of the loop. -/
theorem loadLoop_succ {processMemory processSize base fuel i p : Nat} {pages : PageArray}
    {m₁ m₂ : Machine} {r : Int} {done : Bool} {copied : List Nat}
    (hi : i < (processSize + pageSize) % 2 ^ 32) (halloc : allocatePage m.pages = .ok (p, pages))
    (hp : p ≠ 0) (hmap : mapPage { m with pages := pages } ((base + i * pageSize) % 2 ^ 32) p
      (pageWrite ||| pageUser) = .ok (r, m₁))
    (hcopy : memcpy m₁ p (processMemory + 4 * i) pageSize = .ok m₂)
    (hrest : loadLoop processMemory processSize base fuel ((i + pageSize) % 2 ^ 32) m₂ =
      .ok (done, m', copied)) :
    loadLoop processMemory processSize base (fuel + 1) i m = .ok (done, m', 4 * i :: copied) := by
  rw [loadLoop, if_pos hi]
  refine bind_eq_ok.mpr ⟨(p, pages), halloc, (if_neg hp).trans ?_⟩
  refine bind_eq_ok.mpr ⟨(r, m₁), hmap, bind_eq_ok.mpr ⟨m₂, hcopy, ?_⟩⟩
  exact bind_eq_ok.mpr ⟨(done, m', copied), hrest, rfl⟩

/-- With at most one page handed out there is an entry for another. -/
theorem PageInv.exists_free {a : PageArray} {p : Nat} (h : PageInv a live)
    (hlive : ∀ q ∈ live, q = p) : ∃ slot < maxAllocations, (a.entry slot).utilized = false := by
  have hsub : live ⊆ [p] := fun q hq ↦ List.mem_singleton.mpr (hlive q hq)
  have hlen : live.length ≤ 1 := (List.subperm_of_subset h.nodup hsub).length_le
  exact h.exists_free_of_length (lt_of_le_of_lt hlen (by decide))

end

/-- An image of one byte, at 0x200000, for the address 0x800000. -/
theorem loadProcess_returns : ∃ pages m' live, claimKernel .zero = .ok pages ∧
    loadProcess { loaderMachine with pages := pages } 0x200000 1 0x800000 3 =
      .ok (true, m', [0, 0x4000]) ∧ Loading m' live := by
  obtain ⟨pages, hclaim⟩ := claimKernel_returns
  have h₀ := loading_start hclaim
  obtain ⟨slot₁, hslot₁, hfree₁⟩ :=
    h₀.pages.exists_free (p := 0) fun q hq ↦ absurd hq List.not_mem_nil
  obtain ⟨p₁, pages₁, _, m₁, halloc₁, hp₁, hmap₁, hcopy₁, h₁⟩ := h₀.step hslot₁ hfree₁
    (show 4096 ∣ (0x800000 + 0 * pageSize) % 2 ^ 32 by decide) (by decide) (by decide)
    (show 0x200000 + 4 * 0 = _ ∨ _ from .inl rfl)
  obtain ⟨slot₂, hslot₂, hfree₂⟩ := h₁.pages.exists_free fun q hq ↦ List.mem_singleton.mp hq
  obtain ⟨p₂, pages₂, _, m₂, halloc₂, hp₂, hmap₂, hcopy₂, h₂⟩ := h₁.step hslot₂ hfree₂
    (show 4096 ∣ (0x800000 + 4096 * pageSize) % 2 ^ 32 by decide) (by decide) (by decide)
    (show 0x200000 + 4 * 4096 = _ ∨ _ from .inr rfl)
  refine ⟨pages, m₂, _, hclaim, ?_, h₂⟩
  refine loadLoop_succ (by decide) halloc₁ hp₁ hmap₁ hcopy₁ ?_
  refine loadLoop_succ (by decide) halloc₂ hp₂ hmap₂ hcopy₂ ?_
  rw [loadLoop, if_neg (by decide)]

/-- The address of the image is not mapped. -/
theorem loaderMachine_unmapped (pages : PageArray) : ∀ k < 1,
    translate { loaderMachine with pages := pages } ((0x800000 + k) % 2 ^ 32) false =
      .error .fault := by
  intro k hk
  obtain rfl := Nat.lt_one_iff.mp hk
  have hfault : translate loaderMachine ((0x800000 + 0) % 2 ^ 32) false = .error .fault := by decide
  exact hfault

/-- The image of one byte is not loaded. -/
theorem not_loaded_byte : ∃ pages m', claimKernel .zero = .ok pages ∧
    loadProcess { loaderMachine with pages := pages } 0x200000 1 0x800000 3 =
      .ok (true, m', [0, 0x4000]) ∧
    ¬ Loaded { loaderMachine with pages := pages } m' 0x200000 1 0x800000 [0, 0x4000] := by
  obtain ⟨pages, m', -, hclaim, hload, -⟩ := loadProcess_returns
  exact ⟨pages, m', hclaim, hload, not_loaded (by decide) (by decide)
    (loaderMachine_unmapped pages) hload⟩

/-- **The byte is not at its address**: 0x800000 is not mapped afterwards, and the second of two
pages was copied from 0x4000 bytes behind the beginning of the image. -/
theorem byte_not_at_base : ∃ pages m', claimKernel .zero = .ok pages ∧
    SelfMapped { loaderMachine with pages := pages } ∧
    (∀ k < 1, translate { loaderMachine with pages := pages } ((0x800000 + k) % 2 ^ 32) false =
      .error .fault) ∧
    loadProcess { loaderMachine with pages := pages } 0x200000 1 0x800000 3 =
      .ok (true, m', [0, 0x4000]) ∧
    translate m' 0x800000 false = .error .fault ∧
    ¬ Loaded { loaderMachine with pages := pages } m' 0x200000 1 0x800000 [0, 0x4000] := by
  obtain ⟨pages, m', live, hclaim, hload, hloading⟩ := loadProcess_returns
  have habsent : ¬ IsPresent (m'.pde 2) := by
    intro hp
    rcases hloading.entries 2 (by decide) hp with h | h
    · cases h
    · cases h
  have hfault : translate m' 0x800000 false = .error .fault := by
    have hdenies : denies (m'.pde 2) false = true := by
      rw [denies, beq_iff_eq.mpr (not_not.mp habsent), Bool.true_or]
    rw [translate_eq]
    exact if_pos hdenies
  refine ⟨pages, m', hclaim, (loading_start hclaim).tables, loaderMachine_unmapped pages, hload,
    hfault, fun hl ↦ ?_⟩
  obtain ⟨src, dst, -, hdst, -⟩ := hl.holds 0 (by decide)
  rw [show (0x800000 + 0) % 2 ^ 32 = 0x800000 from rfl, hfault] at hdst
  cases hdst

end Yorha.Page
