import Yorha.Fs.Twin

/-!
# Deleted data

Two runs of the same calls, but for the bytes that are written to a file before it is
removed: what is read afterwards from the files made since is the same in both, as long as
the calls keep to `Discreet` (`reads_same_of_reaches`).

The blocks that become free are not cleared, so a new file starts on the bytes of an old
one, and only its size keeps them from being read.  `write` adds what it accepts to the
size also where it writes over bytes of the file, or leaves a gap.  Then the size covers
bytes that nobody has written since (`overwrite_discloses`).
-/

namespace Yorha.Fs

open Yorha.Lib Yorha.Str Yorha.Util

variable {δ : Type}

/-! ## Two runs side by side -/

/-- Two runs, and what is compared of them. -/
structure TwoRuns (δ : Type) where
  left : Kernel δ
  right : Kernel δ
  /-- The file whose bytes differ. -/
  file : Nat
  /-- Where its block is; a special file has none. -/
  secret : Option Nat
  /-- It has been removed. -/
  deleted : Bool
  /-- The files made since. -/
  files : List Nat
  /-- What was read from these in the one run and in the other. -/
  reads : List (List UInt8 × List UInt8)

/-- A call in each of the runs. -/
inductive TwoCall where
  | call (c : FsCall)
  | read (fd : Int) (buf : Bytes) (count : Nat)
  | write (fd : Int) (buf buf' : Bytes) (count : Nat)

/-- The file that a call made which returned `v`. -/
def FsCall.makes (k : Kernel δ) (v : Int) : FsCall → List Nat
  | .createFiletype _ _ _ _ =>
      if v = -1 then [] else [(k.fs.globalFdTable.entry v.toNat).inodeNum]
  | _ => []

/-- Make a call in both runs. -/
def TwoRuns.exec (t : TwoRuns δ) : TwoCall → Except Stop (Unit × TwoRuns δ)
  | .call c => do
      let (v, left) ← c.exec t.left
      let (_, right) ← c.exec t.right
      .ok ((), { t with
        left := left
        right := right
        deleted := t.deleted || !decide (left.fs.Live t.file)
        files := if t.deleted then c.makes left v ++ t.files else t.files })
  | .read fd buf count => do
      let ((n, out), left) ← Fs.read t.left fd buf count
      let ((n', out'), right) ← Fs.read t.right fd buf count
      let i := (t.left.fs.globalFdTable.entry fd.toNat).inodeNum
      let reads := if i ∈ t.files then t.reads ++ [(out.take n, out'.take n')] else t.reads
      .ok ((), { t with left := left, right := right, reads := reads })
  | .write fd buf buf' count => do
      let (_, left) ← Fs.write t.left fd buf count
      let (_, right) ← Fs.write t.right fd buf' count
      .ok ((), { t with left := left, right := right })

/-- Both runs start where the file is. -/
def TwoRuns.start (k : Kernel δ) (file : Nat) : TwoRuns δ where
  left := k
  right := k
  file := file
  secret := if k.fs.IsSpecial file then none else some (k.fs.address file)
  deleted := false
  files := []
  reads := []

/-- The calls that are compared: `create`, `open`, `close`, `unlink`, `read` and `write`, the
same in both runs but for the bytes written to the file while it is there, and none that
writes to a directory. -/
def TwoRuns.Compares (t : TwoRuns δ) : TwoCall → Prop
  | .call (.createFiletype _ fileType allocateFd _) =>
      fileType = fileTypeNormal ∧ allocateFd = true
  | .call (.openFile _) => True
  | .call (.close _) => True
  | .call (.unlink _ _) => True
  | .call _ => False
  | .read _ _ _ => True
  | .write fd buf buf' count =>
      SafeWrite t.left.fs fd.toNat count ∧ ((∀ j < count, buf' j = buf j) ∨
        (t.left.fs.globalFdTable.entry fd.toNat).inodeNum = t.file ∧ t.deleted = false)

instance TwoRuns.decidableCompares (t : TwoRuns δ) : ∀ c, Decidable (t.Compares c)
  | .call (.createFiletype _ _ _ _) => inferInstanceAs (Decidable (_ ∧ _))
  | .call (.openFile _) => inferInstanceAs (Decidable True)
  | .call (.close _) => inferInstanceAs (Decidable True)
  | .call (.unlink _ _) => inferInstanceAs (Decidable True)
  | .call (.read _ _ _) => inferInstanceAs (Decidable False)
  | .call (.write _ _ _) => inferInstanceAs (Decidable False)
  | .call (.seek _ _ _) => inferInstanceAs (Decidable False)
  | .read _ _ _ => inferInstanceAs (Decidable True)
  | .write _ _ _ _ => inferInstanceAs (Decidable (_ ∧ _))

/-- Calls that disclose nothing.  They follow paths through directories only, free the block
of no live file, and write to a file that has been made since the removal, and has the block,
at its end. -/
def TwoRuns.Discreet (t : TwoRuns δ) : TwoCall → Prop
  | .call (.createFiletype path _ _ _) => t.left.fs.SafePath path
  | .call (.openFile path) => t.left.fs.SafePath path
  | .call (.unlink path _) =>
      t.left.fs.SafePath path ∧ ∀ e ∈ t.left.fs.target path, SafeTarget t.left.fs e
  | .write fd _ _ count => AppendsToListed t.left.fs t.secret t.files fd.toNat count
  | _ => True

instance TwoRuns.decidableDiscreet (t : TwoRuns δ) : ∀ c, Decidable (t.Discreet c)
  | .call (.createFiletype path _ _ _) => inferInstanceAs (Decidable (t.left.fs.SafePath path))
  | .call (.openFile path) => inferInstanceAs (Decidable (t.left.fs.SafePath path))
  | .call (.unlink path _) => inferInstanceAs (Decidable
      (t.left.fs.SafePath path ∧ ∀ e ∈ t.left.fs.target path, SafeTarget t.left.fs e))
  | .call (.close _) => inferInstanceAs (Decidable True)
  | .call (.read _ _ _) => inferInstanceAs (Decidable True)
  | .call (.write _ _ _) => inferInstanceAs (Decidable True)
  | .call (.seek _ _ _) => inferInstanceAs (Decidable True)
  | .read _ _ _ => inferInstanceAs (Decidable True)
  | .write _ _ _ _ => inferInstanceAs (Decidable (AppendsToListed _ _ _ _ _))

/-! ## The invariant -/

/-- What is invariant along two runs. -/
structure Secrecy (t : TwoRuns δ) : Prop where
  twin : Twin t.secret t.files t.left.fs t.right.fs
  guarded : Guarded t.left.fs t.secret t.files
  /-- Until the file is removed it has the block, and no file counts. -/
  file : t.deleted = false → t.left.fs.Live t.file ∧ ¬ t.left.fs.IsDir t.file ∧
    (¬ t.left.fs.IsSpecial t.file → t.secret = some (t.left.fs.address t.file)) ∧ t.files = []
  reads : ∀ r ∈ t.reads, r.1 = r.2

theorem secrecy_start {k : Kernel δ} {f : Nat} (hs : Sound k.fs) (hf : k.fs.Live f)
    (hdir : ¬ k.fs.IsDir f) : Secrecy (TwoRuns.start k f) where
  twin := Twin.refl _ _ _
  guarded := by
    refine ⟨hs, fun {d} hd hdird heq ↦ ?_, fun j hj ↦ absurd hj List.not_mem_nil⟩
    rw [TwoRuns.start] at heq
    split at heq
    · cases heq
    · rename_i hsp
      have hne : f ≠ d := by
        rintro rfl
        exact hdir hdird
      exact hs.blockAddress_ne hf hd hsp hdird.not_isSpecial hne (Option.some.inj heq)
  file := fun _ ↦ ⟨hf, hdir, fun hsp ↦ if_neg hsp, rfl⟩
  reads := fun r hr ↦ absurd hr List.not_mem_nil

/-! ## One call -/

section

variable {k k' k₁ k₁' : Kernel δ} {secret : Option Nat} {files : List Nat} {path : CString}
  {past : Bytes} {v v' : Int} (h : Twin secret files k.fs k'.fs) (hg : Guarded k.fs secret files)

include h hg

/-- Making a file: both runs make it, or neither does. -/
theorem Twin.createFiletype (hsafe : k.fs.SafePath path)
    (hx : Fs.createFiletype k path fileTypeNormal true past = .ok (v, k₁))
    (hx' : Fs.createFiletype k' path fileTypeNormal true past = .ok (v', k₁')) :
    let made := (FsCall.createFiletype path fileTypeNormal true past).makes k₁ v
    Twin secret (made ++ files) k₁.fs k₁'.fs ∧ ∀ j ∈ made, k₁.fs.IsNormal j := by
  rcases createFiletype_ok hx with ⟨rfl, hsame⟩ | ⟨d, i, b, hc, hout⟩
  · rcases createFiletype_ok hx' with ⟨-, hsame'⟩ | ⟨d, i, b, hc', -⟩
    · rw [hsame, hsame']
      exact ⟨h, fun _ hj ↦ absurd hj List.not_mem_nil⟩
    · obtain ⟨hseek, hsearch⟩ := h.search_eq' hg hsafe hc'.seek
      exact absurd rfl (createFiletype_ne hseek (hsearch.symm.trans hc'.search) hx)
  · rcases createFiletype_ok hx' with ⟨rfl, -⟩ | ⟨d', i', b', hc', hout'⟩
    · obtain ⟨hseek, hsearch⟩ := h.search_eq hg hsafe hc.seek
      exact absurd rfl (createFiletype_ne hseek (hsearch.trans hc.search) hx')
    · have hmade : (FsCall.createFiletype path fileTypeNormal true past).makes k₁ v = [i] := by
        cases hout with
        | @opened fd ho =>
            have hentry := ho.entry fd
            rw [if_pos rfl] at hentry
            rw [FsCall.makes, if_neg (fun hneg ↦ by omega), Int.toNat_natCast, hentry]
      have hd := (hg.sound.leads hsafe hc.seek).2.live
      rw [hmade]
      refine ⟨h.created hg hsafe hc hout hc' hout', fun j hj ↦ ?_⟩
      obtain rfl := List.mem_singleton.mp hj
      rw [FileSystem.IsNormal, hc.inode_self hd, madeInode]

/-- Opening a file: both runs open it, or neither does. -/
theorem Twin.openFile (hsafe : k.fs.SafePath path) (hx : Fs.openFile k path = .ok (v, k₁))
    (hx' : Fs.openFile k' path = .ok (v', k₁')) : Twin secret files k₁.fs k₁'.fs := by
  obtain ⟨u, hu, d, hseek, r, hsearch, hcase⟩ := openFile_ok hx
  obtain ⟨u', hu', d', hseek', r', hsearch', hcase'⟩ := openFile_ok hx'
  obtain ⟨htwin, hfound⟩ := h.search_eq hg hsafe hseek
  obtain rfl : d' = d := Int.ofNat.inj (Except.ok.inj (hseek'.symm.trans htwin))
  obtain rfl : r' = r := Except.ok.inj (hsearch'.symm.trans (hfound.trans hsearch))
  obtain rfl : u' = u := by
    rw [h.table] at hcase'
    rcases hcase with ⟨-, hr, rfl⟩ | ⟨hr, fd, -, ho⟩
    · rcases hcase' with ⟨-, -, hsame⟩ | ⟨hr', -⟩
      · exact hsame
      · exact absurd hr hr'
    · rcases hcase' with ⟨-, hr', -⟩ | ⟨-, fd', -, ho'⟩
      · exact absurd hr' hr
      · exact (ho'.unique ho).2
  rw [hu, hu']
  exact h.of_table u'

/-- Removing a file: both runs remove it, or neither does. -/
theorem Twin.unlink (hsafe : k.fs.SafePath path) (hx : Fs.unlink k path past = .ok (v, k₁))
    (hx' : Fs.unlink k' path past = .ok (v', k₁')) : Twin secret files k₁.fs k₁'.fs := by
  rcases unlink_ok hx with ⟨rfl, rfl⟩ | ⟨-, -, d, e, hr⟩
  · rcases unlink_ok hx' with ⟨-, rfl⟩ | ⟨-, -, d, e, hr'⟩
    · exact h
    · obtain ⟨hseek, hfound⟩ := h.search_eq' hg hsafe hr'.seek
      obtain ⟨r, hsearch, hne, -⟩ := hr'.search
      exact absurd rfl (unlink_ne hseek (hfound.symm.trans hsearch) hne hx)
  · rcases unlink_ok hx' with ⟨rfl, rfl⟩ | ⟨-, -, d', e', hr'⟩
    · obtain ⟨hseek, hfound⟩ := h.search_eq hg hsafe hr.seek
      obtain ⟨r, hsearch, hne, -⟩ := hr.search
      exact absurd rfl (unlink_ne hseek (hfound.trans hsearch) hne hx')
    · exact h.removed hg hsafe hr hr'

omit hg in
/-- Closing a descriptor. -/
theorem Twin.close {fd : Int} (hx : Fs.close k fd = .ok (v, k₁))
    (hx' : Fs.close k' fd = .ok (v', k₁')) : Twin secret files k₁.fs k₁'.fs := by
  obtain ⟨-, u, hu, rfl⟩ := close_ok hx
  obtain ⟨-, u', hu', rfl⟩ := close_ok hx'
  rw [h.table, hu] at hu'
  cases hu'
  exact h.of_table u

end

/-- The tree stays a tree. -/
theorem TwoRuns.Discreet.keepsTree {t : TwoRuns δ} {c : FsCall} (hc : t.Compares (.call c))
    (hd : t.Discreet (.call c)) : KeepsTree t.left.fs c := by
  cases c with
  | createFiletype => exact hd
  | unlink => exact hd
  | write => exact hc.elim
  | _ => trivial

/-- **Step.**  A call that is made in both runs. -/
theorem Secrecy.call {t : TwoRuns δ} {c : FsCall} {left right : Kernel δ} {v v' : Int}
    (h : Secrecy t) (hc : t.Compares (.call c)) (hd : t.Discreet (.call c))
    (hx : c.exec t.left = .ok (v, left)) (hx' : c.exec t.right = .ok (v', right)) :
    Twin t.secret (c.makes left v ++ t.files) left.fs right.fs ∧
      Guarded left.fs t.secret (c.makes left v ++ t.files) := by
  have htree := (exec_ok hx).treeEffect h.guarded.sound (hd.keepsTree hc)
  cases c with
  | createFiletype path fileType allocateFd past =>
      obtain ⟨rfl, rfl⟩ := hc
      obtain ⟨htwin, hnormal⟩ := h.twin.createFiletype h.guarded hd hx hx'
      have hguard := h.guarded.step htree rfl
      refine ⟨htwin, hguard.sound, hguard.dirs, fun j hj ↦ ?_⟩
      rcases List.mem_append.mp hj with hj | hj
      · exact hnormal j hj
      · exact hguard.files j hj
  | openFile path => exact ⟨h.twin.openFile h.guarded hd hx hx', h.guarded.step htree trivial⟩
  | close fd => exact ⟨h.twin.close hx hx', h.guarded.step htree trivial⟩
  | unlink path past =>
      exact ⟨h.twin.unlink h.guarded hd.1 hx hx', h.guarded.step htree trivial⟩
  | read => exact hc.elim
  | write => exact hc.elim
  | seek => exact hc.elim

/-- While the file is there, it keeps its block. -/
theorem Secrecy.file_kept {t : TwoRuns δ} {c : FsCall} {fs : FileSystem} (h : Secrecy t)
    (htree : TreeEffect t.left.fs fs c) (hdel : t.deleted = false) (hlive : fs.Live t.file) :
    fs.Live t.file ∧ ¬ fs.IsDir t.file ∧
      (¬ fs.IsSpecial t.file → t.secret = some (fs.address t.file)) ∧ t.files = [] := by
  obtain ⟨hold, hdir, hsecret, hfiles⟩ := h.file hdel
  obtain ⟨htype, haddress⟩ := htree.inode_kept hold
  rw [FileSystem.IsDir, FileSystem.IsSpecial, htype, haddress]
  exact ⟨hlive, hdir, hsecret, hfiles⟩

/-- **Step.**  A write in both runs: of the same bytes, or to the file. -/
theorem Secrecy.write {t : TwoRuns δ} {fd : Int} {buf buf' : Bytes} {count v v' : Nat}
    {left right : Kernel δ} (h : Secrecy t) (hc : t.Compares (.write fd buf buf' count))
    (hd : t.Discreet (.write fd buf buf' count)) (hx : Fs.write t.left fd buf count = .ok (v, left))
    (hx' : Fs.write t.right fd buf' count = .ok (v', right)) :
    Secrecy { t with left := left, right := right } := by
  obtain ⟨hsafe, hbytes⟩ := hc
  obtain ⟨n, rfl, -, hcase⟩ := write_ok hx
  obtain ⟨n', hn, -, hcase'⟩ := write_ok hx'
  obtain rfl : n = n' := Int.ofNat.inj hn
  rw [Int.toNat_natCast] at hsafe hbytes
  rw [FileSystem.IsSpecial, h.twin.table, h.twin.inode] at hcase'
  rcases hcase with ⟨hspecial, hsame⟩ | ⟨-, -, hw⟩
  · -- a handler writes, and the file systems stay
    rcases hcase' with ⟨-, hsame'⟩ | ⟨-, -, hw'⟩
    · refine ⟨?_, ?_, ?_, h.reads⟩
      · exact hsame ▸ hsame' ▸ h.twin
      · exact hsame ▸ h.guarded
      · exact hsame ▸ h.file
    · have hnot := hw'.not_special
      rw [FileSystem.IsSpecial, h.twin.inode] at hnot
      exact absurd hspecial hnot
  · rcases hcase' with ⟨hspecial, -⟩ | ⟨-, -, hw'⟩
    · exact absurd hspecial hw.not_special
    · have htree := (Effect.wrote hw).treeEffect h.guarded.sound hsafe
      refine ⟨?_, h.guarded.step htree trivial, fun hdel ↦ ?_, h.reads⟩
      · rcases hbytes with hsame | ⟨hfile, hdel⟩
        · exact h.twin.wrote hw hw' hsame hd
        · -- the bytes that differ go to the block of the file
          obtain ⟨-, -, hsecret, hfiles⟩ := h.file hdel
          rw [← hfile] at hsecret
          have htwin := h.twin
          change Twin t.secret t.files left.fs right.fs
          rw [hfiles] at htwin ⊢
          exact htwin.wrote_secret hw hw' (hsecret hw.not_special)
      · refine h.file_kept htree hdel ?_
        rw [FileSystem.Live, hw.ibmap]
        exact (h.file hdel).1

/-- **Step.**  What is read in both runs from a file that was made since is the same. -/
theorem Secrecy.read {t : TwoRuns δ} {fd : Int} {buf : Bytes} {count : Nat} {v v' : Nat × Bytes}
    {left right : Kernel δ} (h : Secrecy t) (hx : Fs.read t.left fd buf count = .ok (v, left))
    (hx' : Fs.read t.right fd buf count = .ok (v', right)) :
    Secrecy { t with left := left, right := right } ∧
      ((t.left.fs.globalFdTable.entry fd.toNat).inodeNum ∈ t.files → v' = v) := by
  obtain ⟨htwin, hsame⟩ := h.twin.read hx hx'
  obtain ⟨u, hfs, -⟩ := read_ok hx
  have htree : TreeEffect t.left.fs left.fs (.read fd buf count) := by
    rw [hfs]
    exact .same (.of_table _ _)
  refine ⟨⟨htwin, h.guarded.step htree trivial, fun hdel ↦ ?_, h.reads⟩,
    fun hfile ↦ hsame hfile (h.guarded.files _ hfile)⟩
  refine h.file_kept htree hdel ?_
  rw [hfs]
  exact (h.file hdel).1

/-- **Step.** -/
theorem Secrecy.exec {t t' : TwoRuns δ} {c : TwoCall} {v : Unit} (h : Secrecy t)
    (hok : t.Compares c ∧ t.Discreet c) (hx : t.exec c = .ok (v, t')) : Secrecy t' := by
  obtain ⟨hc, hd⟩ := hok
  cases c with
  | call c =>
      simp only [TwoRuns.exec, bind_eq_ok, Prod.exists] at hx
      obtain ⟨v₁, left, hl, v₂, right, hr, hx⟩ := hx
      cases hx
      obtain ⟨htwin, hguard⟩ := h.call hc hd hl hr
      have htree := (exec_ok hl).treeEffect h.guarded.sound (hd.keepsTree hc)
      refine ⟨?_, ?_, fun hdel ↦ ?_, h.reads⟩
      · change Twin t.secret (if t.deleted then _ else t.files) left.fs right.fs
        split
        · exact htwin
        · exact htwin.mono fun j hj ↦ List.mem_append_right _ hj
      · change Guarded left.fs t.secret (if t.deleted then _ else t.files)
        split
        · exact hguard
        · exact ⟨hguard.sound, hguard.dirs, fun j hj ↦ hguard.files j (List.mem_append_right _ hj)⟩
      · change (t.deleted || !decide (left.fs.Live t.file)) = false at hdel
        rw [Bool.or_eq_false_iff, Bool.not_eq_false', decide_eq_true_iff] at hdel
        obtain ⟨hdel, hlive⟩ := hdel
        have hkept := h.file_kept htree hdel hlive
        change _ ∧ _ ∧ _ ∧ (if t.deleted then _ else t.files) = []
        rw [hdel]
        exact hkept
  | read fd buf count =>
      simp only [TwoRuns.exec, bind_eq_ok, Prod.exists] at hx
      obtain ⟨n, out, left, hl, n', out', right, hr, hx⟩ := hx
      cases hx
      obtain ⟨hstep, hsame⟩ := h.read hl hr
      refine ⟨hstep.twin, hstep.guarded, hstep.file, fun r hmem ↦ ?_⟩
      change r ∈ (if _ then _ else t.reads) at hmem
      split at hmem
      · rename_i hfile
        rcases List.mem_append.mp hmem with hmem | hmem
        · exact h.reads r hmem
        · obtain rfl := List.mem_singleton.mp hmem
          cases hsame hfile
          rfl
      · exact h.reads r hmem
  | write fd buf buf' count =>
      simp only [TwoRuns.exec, bind_eq_ok, Prod.exists] at hx
      obtain ⟨v₁, left, hl, v₂, right, hr, hx⟩ := hx
      cases hx
      exact h.write hc hd hl hr

/-! ## Runs -/

/-- **Deleted data is not disclosed.**  Take a file of a file system that calls keeping the
tree lead to from a formatted disk, and two runs that differ in the bytes written to it: when
the calls are discreet, what is read from the files made after it was removed is the same. -/
theorem reads_same_of_reaches {k₀ k : Kernel δ} {f : Nat} {t : TwoRuns δ} (h₀ : Formatted k₀)
    (hk : Reaches FsCall.exec (fun k c ↦ KeepsTree k.fs c) k₀ k) (hf : k.fs.Live f)
    (hdir : ¬ k.fs.IsDir f)
    (h : Reaches TwoRuns.exec (fun t c ↦ t.Compares c ∧ t.Discreet c) (TwoRuns.start k f) t) :
    ∀ r ∈ t.reads, r.1 = r.2 := by
  have hs : Sound k.fs := by
    refine hk.invariant (I := fun k ↦ Sound k.fs) h₀.quiet.sound fun hs hc hx ↦ ?_
    exact ((exec_ok hx).treeEffect hs hc).sound hs
  have hinv : Secrecy t := h.invariant (secrecy_start hs hf hdir) fun hi hok hx ↦ hi.exec hok hx
  exact hinv.reads

/-! ## A file removed -/

/-- A disk with a file `/a`, which descriptor 2 is open on. -/
def secretKernel : Option (Kernel Unit) :=
  runCalls FsCall.exec (fun k c ↦ KeepsTree k.fs c)
    [.create (.literal "/a") fun _ ↦ 0] terminalKernel

/-- Twenty bytes go to `/a`, other ones in the other run.  It is removed, `/b` is made, which
gets its block, and ten bytes go to that. -/
def reuseCalls : List TwoCall :=
  [.write 2 (fun _ ↦ 7) (fun _ ↦ 9) 20, .call (.unlink (.literal "/a") fun _ ↦ 0),
    .call (.create (.literal "/b") fun _ ↦ 0), .write 3 (fun _ ↦ 5) (fun _ ↦ 5) 10,
    .call (.openFile (.literal "/b"))]

/-- Reading `/b` after it was opened again. -/
theorem reads_same_reuse : ∃ k t, secretKernel = some k ∧
    Reaches TwoRuns.exec (fun t c ↦ t.Compares c ∧ t.Discreet c) (TwoRuns.start k 4) t ∧
    t.reads = [(List.replicate 10 5, List.replicate 10 5)] ∧ ∀ r ∈ t.reads, r.1 = r.2 := by
  have hcheck : (secretKernel.any fun k ↦ decide (k.fs.Live 4 ∧ ¬ k.fs.IsDir 4) &&
      (runCalls TwoRuns.exec (fun t c ↦ t.Compares c ∧ t.Discreet c)
        (reuseCalls ++ [.read 4 (fun _ ↦ 0) 20]) (TwoRuns.start k 4)).any fun t ↦
          t.reads == [(List.replicate 10 5, List.replicate 10 5)]) = true := by
    decide +kernel
  obtain ⟨k, hk, hcheck⟩ := (Option.any_eq_true _ _).mp hcheck
  rw [Bool.and_eq_true] at hcheck
  obtain ⟨hfile, hcheck⟩ := hcheck
  obtain ⟨t, ht, hreads⟩ := (Option.any_eq_true _ _).mp hcheck
  obtain ⟨hf, hdir⟩ := of_decide_eq_true hfile
  have hreach := reaches_of_runCalls ht
  exact ⟨k, t, hk, hreach, beq_iff_eq.mp hreads,
    reads_same_of_reaches formatted_terminalKernel (reaches_of_runCalls hk) hf hdir hreach⟩

/-- **Writing over the start of `/b` discloses the end of `/a`.** -/
theorem overwrite_discloses : Formatted terminalKernel ∧ ∃ k t, secretKernel = some k ∧
    k.fs.Live 4 ∧ (k.fs.inode 4).fileType = fileTypeNormal ∧
    Reaches TwoRuns.exec TwoRuns.Compares (TwoRuns.start k 4) t ∧
    (List.replicate 10 5 ++ List.replicate 10 7, List.replicate 10 5 ++ List.replicate 10 9) ∈
      t.reads := by
  have hcheck : (secretKernel.any fun k ↦
      decide (k.fs.Live 4 ∧ (k.fs.inode 4).fileType = fileTypeNormal) &&
      (runCalls TwoRuns.exec TwoRuns.Compares
        (reuseCalls ++ [.write 4 (fun _ ↦ 5) (fun _ ↦ 5) 10, .read 4 (fun _ ↦ 0) 20])
        (TwoRuns.start k 4)).any fun t ↦
          decide ((List.replicate 10 5 ++ List.replicate 10 7,
            List.replicate 10 5 ++ List.replicate 10 9) ∈ t.reads)) = true := by
    decide +kernel
  obtain ⟨k, hk, hcheck⟩ := (Option.any_eq_true _ _).mp hcheck
  rw [Bool.and_eq_true] at hcheck
  obtain ⟨hfile, hcheck⟩ := hcheck
  obtain ⟨t, ht, hread⟩ := (Option.any_eq_true _ _).mp hcheck
  obtain ⟨hf, hnormal⟩ := of_decide_eq_true hfile
  exact ⟨formatted_terminalKernel, k, t, hk, hf, hnormal, reaches_of_runCalls ht,
    of_decide_eq_true hread⟩

end Yorha.Fs
