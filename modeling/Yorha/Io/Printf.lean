import Yorha.Io.Vga
import Yorha.Str.Number

/-!
# Formats

`kprintf` and `fmt` of `vga.c`: two loops over a format string, the first of which hands every
character to `kputc`, and the second stores it in a buffer.  They share the loop, with what is
done with a character and what is done for a conversion as parameters.

A conversion makes the digits of a number in a local array.  `kprintf` knows how many there are;
`fmt` looks for a terminator, which only `int_to_string` writes.  So `fmt` writes what `kprintf`
prints if the arrays of `%x` and `%b` happen to hold a zero behind the digits, and no `%c` is
given a zero (`agree_iff`); and with `%d` and `%u` the terminator does not fit into the array of
`kputint`.
-/

namespace Yorha.Io

open Yorha.Lib Yorha.Str

/-! ## The code -/

/-- What `va_arg` finds: a word, or a pointer to a string. -/
inductive VaArg where
  | word (w : Word)
  | string (s : CString)

/-- The conversions: the cases of the `switch`. -/
inductive Conversion where
  | string
  | char
  | signed
  | unsigned
  | hex
  | bin
deriving DecidableEq

/-- The conversion that a character behind a `%` asks for, if it is not the `default`. -/
def Conversion.ofChar (next : UInt8) : Option Conversion :=
  if next = 's'.toUInt8 then some .string
  else if next = 'c'.toUInt8 then some .char
  else if next = 'd'.toUInt8 then some .signed
  else if next = 'u'.toUInt8 then some .unsigned
  else if next = 'x'.toUInt8 then some .hex
  else if next = 'b'.toUInt8 then some .bin
  else none

/-- The state of a call on a format. -/
structure Printing (α : Type) where
  /-- The arguments that are left. -/
  args : List VaArg
  /-- The memory that the local array for each of them is in. -/
  locals : Nat → Bytes
  /-- What the characters went to. -/
  out : α
  /-- No access to a local array was outside it. -/
  inside : Bool

section

variable {α : Type} (put : α → UInt8 → α)

namespace Printing

/-- The state behind the next argument. -/
def next (s : Printing α) : Printing α :=
  { s with args := s.args.tail, locals := fun i ↦ s.locals (i + 1) }

/-- `va_arg(argptr, char*)`. -/
def vaString (s : Printing α) : Except Stop (CString × Printing α) :=
  match s.args with
  | .string str :: _ => .ok (str, s.next)
  | _ => .error .fault

/-- `va_arg` for a number, and the memory of the local array. -/
def vaWord (s : Printing α) : Except Stop (Word × Bytes × Printing α) :=
  match s.args with
  | .word w :: _ => .ok (w, s.locals 0, s.next)
  | _ => .error .fault

/-- Characters written one by one. -/
def write (s : Printing α) (text : List UInt8) : Printing α :=
  { s with out := text.foldl put s.out }

/-- `kwrite`, of the first `size` characters of an array. -/
def kwrite (s : Printing α) (data : CharArray) (size : Nat) : Printing α :=
  { s.write put (data.bytes.take size) with
    inside := s.inside && decide (max data.used size ≤ data.size) }

/-- `kputint`. -/
def kputint (s : Printing α) (mem : Bytes) (value : Int) : Printing α :=
  let len := intlen value
  let len := if len > 0 then len else 1
  s.kwrite put (intToString value ⟨len, mem, 0⟩) len

/-- The loops of `fmt` over the characters of an array, up to a terminator. -/
def copy (s : Printing α) (data : CharArray) : Except Stop (Printing α) := do
  let text ← readString data.bytes (2 ^ 32)
  .ok { s.write put text with
    inside := s.inside && decide (max data.used (text.length + 1) ≤ data.size) }

end Printing

/-- The bytes of `num`. -/
def bytesOf (num : Word) : Bytes := Bytes.ofList (Bytes.ofWord num.toNat)

/-- The `switch` of `kprintf`. -/
def kprintfConvert (s : Printing α) (next : UInt8) : Except Stop (Printing α) :=
  match Conversion.ofChar next with
  | some .string => do
      let (str, s) ← s.vaString
      .ok (s.write put str.chars)
  | some .char => do
      let (w, _, s) ← s.vaWord
      .ok (s.write put [toChar w.toInt])
  | some .signed => do
      let (w, buffer, s) ← s.vaWord
      .ok (s.kputint put buffer w.toInt)
  | some .unsigned => do
      let (w, buffer, s) ← s.vaWord
      .ok (s.kputint put buffer w.toInt)
  | some .hex => do
      let (num, hexNum, s) ← s.vaWord
      .ok (s.kwrite put (buffToHexstring (bytesOf num) ⟨9, hexNum, 0⟩ 4) 8)
  | some .bin => do
      let (num, binString, s) ← s.vaWord
      .ok (s.kwrite put (buffToBinstring (bytesOf num) ⟨32, binString, 0⟩ 4) 32)
  | none => .ok (s.write put ['%'.toUInt8, next])

/-- The `switch` of `fmt`. -/
def fmtConvert (s : Printing α) (next : UInt8) : Except Stop (Printing α) :=
  match Conversion.ofChar next with
  | some .string => do
      let (str, s) ← s.vaString
      .ok (s.write put str.chars)
  | some .char => do
      let (w, _, s) ← s.vaWord
      .ok (s.write put [toChar w.toInt])
  | some .signed => do
      let (w, temp, s) ← s.vaWord
      s.copy put (intToString w.toInt ⟨12, temp, 0⟩)
  | some .unsigned => do
      let (w, temp, s) ← s.vaWord
      s.copy put (intToString w.toInt ⟨12, temp, 0⟩)
  | some .hex => do
      let (num, hexNum, s) ← s.vaWord
      s.copy put (buffToHexstring (bytesOf num) ⟨9, hexNum, 0⟩ 4)
  | some .bin => do
      let (num, binString, s) ← s.vaWord
      s.copy put (buffToBinstring (bytesOf num) ⟨33, binString, 0⟩ 4)
  | none => .ok (s.write put ['%'.toUInt8, next])

/-- The loop over the format. -/
def formatLoop (convert : Printing α → UInt8 → Except Stop (Printing α)) (s : Printing α) :
    List UInt8 → Except Stop (Printing α)
  | [] => .ok s
  | c :: rest =>
      if c = '%'.toUInt8 then
        match rest with
        | [] => .ok s
        | next :: rest => do
            let s ← convert s next
            formatLoop convert s rest
      else formatLoop convert (s.write put [c]) rest

/-- `kprintf`, with `put` for `kputc`. -/
def kprintf (out : α) (format : CString) (args : List VaArg) (locals : Nat → Bytes) :
    Except Stop (Printing α) :=
  formatLoop put (kprintfConvert put) ⟨args, locals, out, true⟩ format.chars

end

/-- `buffer[buf_index++] = c`. -/
def storeNext (b : Bytes × Nat) (c : UInt8) : Bytes × Nat := (Function.update b.1 b.2 c, b.2 + 1)

/-- `fmt`. -/
def fmt (buffer : Bytes) (format : CString) (args : List VaArg) (locals : Nat → Bytes) :
    Except Stop (Printing Bytes) := do
  let s ← formatLoop storeNext (fmtConvert storeNext) ⟨args, locals, (buffer, 0), true⟩
    format.chars
  .ok ⟨s.args, s.locals, Function.update s.out.1 s.out.2 0, s.inside⟩

/-! ## What a format says -/

/-- The conversions of a format, in order. -/
def conversions : List UInt8 → List Conversion
  | [] => []
  | c :: rest =>
      if c = '%'.toUInt8 then
        match rest with
        | [] => []
        | next :: rest => (Conversion.ofChar next).toList ++ conversions rest
      else conversions rest

namespace Conversion

/-- The argument has the type that the conversion asks for. -/
def Takes : Conversion → VaArg → Prop
  | .string, .string _ => True
  | .string, .word _ => False
  | _, .word _ => True
  | _, .string _ => False

/-- What is written for an argument. -/
def text : Conversion → VaArg → List UInt8
  | _, .string str => str.chars
  | .char, .word w => [toChar w.toInt]
  | .hex, .word w => hexText w.toNat
  | .bin, .word w => binText w.toNat
  | _, .word w => numberText w.toInt

/-- `kprintf` stays inside its array. -/
def fitsKprintf : Conversion → Bool
  | .signed => false
  | .unsigned => false
  | _ => true

/-- `fmt` finds a zero behind the digits. -/
def Ends : Conversion → Bytes → Prop
  | .hex, mem => mem 8 = 0
  | .bin, mem => mem 32 = 0
  | _, _ => True

/-- Both functions do the same, within their arrays. -/
def Same : Conversion → VaArg → Bytes → Prop
  | .char, .word w, _ => toChar w.toInt ≠ 0
  | .signed, _, _ => False
  | .unsigned, _, _ => False
  | .hex, _, mem => mem 8 = 0
  | .bin, _, mem => mem 32 = 0
  | _, _, _ => True

end Conversion

/-- The text of a format and its arguments. -/
def formatText : List UInt8 → List VaArg → List UInt8
  | [], _ => []
  | c :: rest, args =>
      if c = '%'.toUInt8 then
        match rest with
        | [] => []
        | next :: rest =>
            match Conversion.ofChar next, args with
            | none, args => '%'.toUInt8 :: next :: formatText rest args
            | some c, a :: args => c.text a ++ formatText rest args
            | some _, [] => []
      else c :: formatText rest args

/-- Something holds of each conversion with its argument and its memory. -/
def Everywhere (P : Conversion → VaArg → Bytes → Prop) (cs : List Conversion)
    (args : List VaArg) (locals : Nat → Bytes) : Prop :=
  ∀ i c a, cs[i]? = some c → args[i]? = some a → P c a (locals i)

/-- The arguments match the format. -/
def Matches (cs : List Conversion) (args : List VaArg) : Prop :=
  List.Forall₂ Conversion.Takes cs args

section

variable {P : Conversion → VaArg → Bytes → Prop} {c : Conversion} {cs : List Conversion}
  {a : VaArg} {args : List VaArg} {locals : Nat → Bytes}

theorem everywhere_nil : Everywhere P [] args locals := fun _ _ _ h ↦ nomatch h

theorem everywhere_cons : Everywhere P (c :: cs) (a :: args) locals ↔
    P c a (locals 0) ∧ Everywhere P cs args fun i ↦ locals (i + 1) := by
  constructor
  · exact fun h ↦ ⟨h 0 c a rfl rfl, fun i c' a' hc ha ↦ h (i + 1) c' a' hc ha⟩
  · rintro ⟨hhead, htail⟩ (_ | i) c' a' hc ha
    · cases hc
      cases ha
      exact hhead
    · exact htail i c' a' hc ha

end

/-! ## One conversion -/

section

variable {α : Type} {put : α → UInt8 → α} {s s' : Printing α} {next : UInt8} {c : Conversion}
  {a : VaArg} {args : List VaArg} {text rest : List UInt8} {mem : Bytes} {size : Nat}

/-- The digits in an array, and what is stored behind them. -/
theorem kwrite_stores (put : α → UInt8 → α) (s : Printing α) (size : Nat) (mem : Bytes)
    (text rest : List UInt8) :
    s.kwrite put ((⟨size, mem, 0⟩ : CharArray).stores (text ++ rest)) text.length =
      { s.write put text with
        inside := s.inside && decide ((text ++ rest).length ≤ size) } := by
  have hle : text.length ≤ (text ++ rest).length := by
    rw [List.length_append]
    exact Nat.le_add_right _ _
  have htake : (((⟨size, mem, 0⟩ : CharArray).stores (text ++ rest)).bytes).take text.length =
      text := by
    rw [← Nat.min_eq_left hle, ← Bytes.take_take, CharArray.take_stores, List.take_left]
  have hused : max (max 0 (text ++ rest).length) text.length = (text ++ rest).length := by omega
  rw [Printing.kwrite, htake]
  simp only [CharArray.stores, hused]

/-- An array in which a zero follows the digits. -/
theorem copy_eq {data : CharArray} (s : Printing α) (hdata : data.bytes.IsString text)
    (hzero : 0 ∉ text) (hlen : text.length < 2 ^ 32)
    (hin : max data.used (text.length + 1) ≤ data.size) :
    s.copy put data = .ok (s.write put text) := by
  rw [Printing.copy, readString_eq_ok.mpr ⟨hlen, hzero, hdata⟩, ok_bind, decide_eq_true hin,
    Bool.and_true]
  rfl

/-- The number in its four bytes. -/
theorem word_bytesOf (num : Word) : (bytesOf num).word = num.toNat := by
  have h := Bytes.word_ofList num.toNat []
  rwa [List.append_nil, Nat.mod_eq_of_lt num.isLt] at h

/-- `kputint` writes the digits, and has no room for the terminator. -/
theorem kputint_eq (s : Printing α) (mem : Bytes) (value : Int) :
    s.kputint put mem value = { s.write put (numberText value) with inside := false } := by
  have hpos : intlen value > 0 := by
    rw [intlen_eq, numberText, List.length_append]
    have hne := List.length_pos_of_ne_nil (digitText_ne_nil (signOf value) value.natAbs)
    omega
  have hlen : ¬ (numberText value ++ [0]).length ≤ (numberText value).length := by
    rw [List.length_append, List.length_singleton]
    omega
  rw [Printing.kputint, if_pos hpos, intToString_eq, intlen_eq, kwrite_stores,
    decide_eq_false hlen, Bool.and_false]

/-- `fmt` finds the terminator of `int_to_string`. -/
theorem copy_intToString (s : Printing α) (mem : Bytes) (w : Word) :
    s.copy put (intToString w.toInt ⟨12, mem, 0⟩) = .ok (s.write put (numberText w.toInt)) := by
  have hlen := length_numberText_le w
  rw [intToString_eq]
  refine copy_eq s ?_ (zero_notMem_numberText _) (by omega) ?_
  · have hstring := Bytes.isString_splice mem 0 (numberText w.toInt)
    rwa [Bytes.drop_zero] at hstring
  · have hall : (numberText w.toInt ++ [0]).length = (numberText w.toInt).length + 1 := by
      rw [List.length_append, List.length_singleton]
    simp only [CharArray.stores, hall]
    omega

/-- Behind digits without a terminator, `fmt` finds one if it was there before. -/
theorem copy_stores {n : Nat} (s : Printing α) (hlen : text.length = n) (hn : n < 2 ^ 32)
    (hzero : 0 ∉ text) (hmem : mem n = 0) :
    s.copy put ((⟨n + 1, mem, 0⟩ : CharArray).stores text) = .ok (s.write put text) := by
  subst hlen
  refine copy_eq s ?_ hzero hn ?_
  · refine (Bytes.isString_splice_zero hzero).mpr ⟨[], (List.append_nil _).symm, ?_⟩
    exact Bytes.isString_nil.mpr hmem
  · simp only [CharArray.stores]
    omega

/-- Otherwise it leaves the array. -/
theorem zero_of_copy_stores {n : Nat} (hlen : text.length = n) (hzero : 0 ∉ text)
    (h : s.copy put ((⟨n + 1, mem, 0⟩ : CharArray).stores text) = .ok s')
    (hin : s'.inside = true) : mem n = 0 := by
  subst hlen
  obtain ⟨found, hfound, hs'⟩ := bind_eq_ok.mp h
  cases hs'
  obtain ⟨-, -, hstring⟩ := readString_eq_ok.mp hfound
  obtain ⟨rest, rfl, hrest⟩ := (Bytes.isString_splice_zero hzero).mp hstring
  have hle := of_decide_eq_true (Bool.and_eq_true_iff.mp hin).2
  rw [List.length_append] at hle
  simp only [CharArray.stores] at hle
  have hnil : rest = [] := List.length_eq_zero_iff.mp (by omega)
  subst hnil
  exact Bytes.isString_nil.mp hrest

/-- An array that was left stays left. -/
theorem inside_of_copy {data : CharArray} (h : s.copy put data = .ok s')
    (hin : s'.inside = true) : s.inside = true := by
  obtain ⟨found, -, hs'⟩ := bind_eq_ok.mp h
  cases hs'
  exact (Bool.and_eq_true_iff.mp hin).1

/-- What a `switch` does: for an argument that fits it writes the text, and otherwise it leaves
an array. -/
structure Converts (put : α → UInt8 → α)
    (convert : Printing α → UInt8 → Except Stop (Printing α)) (fits : Conversion → Bytes → Prop)
    (ok : Conversion → Bool) : Prop where
  unknown : ∀ s next, Conversion.ofChar next = none →
    convert s next = .ok (s.write put ['%'.toUInt8, next])
  known : ∀ s next c a args, Conversion.ofChar next = some c → s.args = a :: args → c.Takes a →
    fits c (s.locals 0) →
    convert s next = .ok { s.next.write put (c.text a) with inside := s.inside && ok c }
  /-- What was outside an array stays so. -/
  mono : ∀ s s' next, convert s next = .ok s' → s'.inside = true → s.inside = true
  fits_of_inside : ∀ s s' next c a args, Conversion.ofChar next = some c → s.args = a :: args →
    c.Takes a → convert s next = .ok s' → s'.inside = true → fits c (s.locals 0) ∧ ok c = true

theorem vaWord_eq {w : Word} (h : s.args = .word w :: args) :
    s.vaWord = .ok (w, s.locals 0, s.next) := by
  rw [Printing.vaWord, h]

theorem vaString_eq {str : CString} (h : s.args = .string str :: args) :
    s.vaString = .ok (str, s.next) := by
  rw [Printing.vaString, h]

/-- A string is for `%s`. -/
theorem Conversion.Takes.eq_string {str : CString} (h : c.Takes (.string str)) : c = .string := by
  cases c with
  | string => rfl
  | _ => exact h.elim

/-- The hexadecimal digits of a number, in an array with room for a terminator. -/
theorem buffToHexstring_bytesOf (num : Word) (dst : CharArray) :
    buffToHexstring (bytesOf num) dst 4 = dst.stores (hexText num.toNat) := by
  rw [buffToHexstring_one, word_bytesOf]

theorem buffToBinstring_bytesOf (num : Word) (dst : CharArray) :
    buffToBinstring (bytesOf num) dst 4 = dst.stores (binText num.toNat) := by
  have hword : wordAt (bytesOf num) 0 = num.toNat := word_bytesOf num
  have hstores := buffToBinstring_eq (bytesOf num) dst 0
  rwa [hword] at hstores

theorem kwrite_hex (s : Printing α) (mem : Bytes) (num : Word) :
    s.kwrite put (buffToHexstring (bytesOf num) ⟨9, mem, 0⟩ 4) 8 =
      { s.write put (hexText num.toNat) with inside := s.inside && true } := by
  have hkwrite := kwrite_stores put s 9 mem (hexText num.toNat) []
  rw [List.append_nil, length_hexText] at hkwrite
  rw [buffToHexstring_bytesOf]
  exact hkwrite

theorem kwrite_bin (s : Printing α) (mem : Bytes) (num : Word) :
    s.kwrite put (buffToBinstring (bytesOf num) ⟨32, mem, 0⟩ 4) 32 =
      { s.write put (binText num.toNat) with inside := s.inside && true } := by
  have hkwrite := kwrite_stores put s 32 mem (binText num.toNat) []
  rw [List.append_nil, length_binText] at hkwrite
  rw [buffToBinstring_bytesOf]
  exact hkwrite

/-- What `kprintf` writes for a conversion. -/
theorem kprintfConvert_eq (hnext : Conversion.ofChar next = some c) (hargs : s.args = a :: args)
    (htakes : c.Takes a) : kprintfConvert put s next =
      .ok { s.next.write put (c.text a) with inside := s.inside && c.fitsKprintf } := by
  have htrue : s.next.inside = (s.inside && true) := (Bool.and_true _).symm
  rw [kprintfConvert, hnext]
  cases a with
  | string str =>
      cases htakes.eq_string
      simp only [vaString_eq hargs, ok_bind, Conversion.fitsKprintf, ← htrue]
      rfl
  | word w =>
      have hva := vaWord_eq hargs
      cases c with
      | string => exact htakes.elim
      | char =>
          simp only [hva, ok_bind, Conversion.fitsKprintf, ← htrue]
          rfl
      | signed =>
          simp only [hva, ok_bind, kputint_eq, Conversion.fitsKprintf, Bool.and_false]
          rfl
      | unsigned =>
          simp only [hva, ok_bind, kputint_eq, Conversion.fitsKprintf, Bool.and_false]
          rfl
      | hex =>
          simp only [hva, ok_bind, kwrite_hex, Conversion.fitsKprintf]
          rfl
      | bin =>
          simp only [hva, ok_bind, kwrite_bin, Conversion.fitsKprintf]
          rfl

/-- What `fmt` writes for a conversion. -/
theorem fmtConvert_eq (hnext : Conversion.ofChar next = some c) (hargs : s.args = a :: args)
    (htakes : c.Takes a) (hends : c.Ends (s.locals 0)) :
    fmtConvert put s next = .ok (s.next.write put (c.text a)) := by
  rw [fmtConvert, hnext]
  cases a with
  | string str =>
      cases htakes.eq_string
      simp only [vaString_eq hargs, ok_bind]
      rfl
  | word w =>
      have hva := vaWord_eq hargs
      cases c with
      | string => exact htakes.elim
      | char =>
          simp only [hva, ok_bind]
          rfl
      | signed =>
          simp only [hva, ok_bind, copy_intToString]
          rfl
      | unsigned =>
          simp only [hva, ok_bind, copy_intToString]
          rfl
      | hex =>
          simp only [hva, ok_bind, buffToHexstring_bytesOf]
          exact copy_stores s.next (length_hexText _) (by decide) (zero_notMem_hexText _) hends
      | bin =>
          simp only [hva, ok_bind, buffToBinstring_bytesOf]
          exact copy_stores s.next (length_binText _) (by decide) (zero_notMem_binText _) hends

/-- Taking an argument leaves the flag. -/
theorem inside_of_vaWord {f : Word × Bytes × Printing α → Except Stop (Printing α)}
    (h : (s.vaWord >>= f) = .ok s')
    (hf : ∀ w mem s₁, f (w, mem, s₁) = .ok s' → s₁.inside = true) : s.inside = true := by
  rw [Printing.vaWord] at h
  split at h
  · exact hf _ _ s.next h
  · cases h

theorem inside_of_vaString {f : CString × Printing α → Except Stop (Printing α)}
    (h : (s.vaString >>= f) = .ok s')
    (hf : ∀ str s₁, f (str, s₁) = .ok s' → s₁.inside = true) : s.inside = true := by
  rw [Printing.vaString] at h
  split at h
  · exact hf _ s.next h
  · cases h

theorem inside_of_write (h : (Except.ok (s.write put text) : Except Stop _) = .ok s')
    (hin : s'.inside = true) : s.inside = true := by
  cases h
  exact hin

theorem inside_of_kwrite {data : CharArray} (h : (Except.ok (s.kwrite put data size) :
    Except Stop _) = .ok s') (hin : s'.inside = true) : s.inside = true := by
  cases h
  exact (Bool.and_eq_true_iff.mp hin).1

/-- `kprintf` only clears the flag. -/
theorem inside_of_kprintfConvert (h : kprintfConvert put s next = .ok s')
    (hin : s'.inside = true) : s.inside = true := by
  rw [kprintfConvert] at h
  split at h
  · exact inside_of_vaString h fun str s₁ hs ↦ inside_of_write hs hin
  · exact inside_of_vaWord h fun w mem s₁ hs ↦ inside_of_write hs hin
  · exact inside_of_vaWord h fun w mem s₁ hs ↦ inside_of_kwrite hs hin
  · exact inside_of_vaWord h fun w mem s₁ hs ↦ inside_of_kwrite hs hin
  · exact inside_of_vaWord h fun w mem s₁ hs ↦ inside_of_kwrite hs hin
  · exact inside_of_vaWord h fun w mem s₁ hs ↦ inside_of_kwrite hs hin
  · exact inside_of_write h hin

/-- `fmt` only clears the flag. -/
theorem inside_of_fmtConvert (h : fmtConvert put s next = .ok s') (hin : s'.inside = true) :
    s.inside = true := by
  rw [fmtConvert] at h
  split at h
  · exact inside_of_vaString h fun str s₁ hs ↦ inside_of_write hs hin
  · exact inside_of_vaWord h fun w mem s₁ hs ↦ inside_of_write hs hin
  · exact inside_of_vaWord h fun w mem s₁ hs ↦ inside_of_copy hs hin
  · exact inside_of_vaWord h fun w mem s₁ hs ↦ inside_of_copy hs hin
  · exact inside_of_vaWord h fun w mem s₁ hs ↦ inside_of_copy hs hin
  · exact inside_of_vaWord h fun w mem s₁ hs ↦ inside_of_copy hs hin
  · exact inside_of_write h hin

/-- Where `fmt` stays inside its arrays, a zero is behind the digits. -/
theorem ends_of_fmtConvert (hnext : Conversion.ofChar next = some c) (hargs : s.args = a :: args)
    (htakes : c.Takes a) (h : fmtConvert put s next = .ok s') (hin : s'.inside = true) :
    c.Ends (s.locals 0) := by
  rw [fmtConvert, hnext] at h
  cases c with
  | hex =>
      cases a with
      | string str => exact htakes.elim
      | word w =>
          simp only [vaWord_eq hargs, ok_bind, buffToHexstring_bytesOf] at h
          exact zero_of_copy_stores (length_hexText _) (zero_notMem_hexText _) h hin
  | bin =>
      cases a with
      | string str => exact htakes.elim
      | word w =>
          simp only [vaWord_eq hargs, ok_bind, buffToBinstring_bytesOf] at h
          exact zero_of_copy_stores (length_binText _) (zero_notMem_binText _) h hin
  | _ => trivial

/-- `kprintf` converts. -/
theorem converts_kprintf (put : α → UInt8 → α) :
    Converts put (kprintfConvert put) (fun _ _ ↦ True) Conversion.fitsKprintf where
  unknown := by
    intro s next hnext
    rw [kprintfConvert, hnext]
  known := fun s next c a args hnext hargs htakes _ ↦ kprintfConvert_eq hnext hargs htakes
  mono := fun s s' next h hin ↦ inside_of_kprintfConvert h hin
  fits_of_inside := by
    intro s s' next c a args hnext hargs htakes h hin
    rw [kprintfConvert_eq hnext hargs htakes] at h
    cases h
    exact ⟨trivial, (Bool.and_eq_true_iff.mp hin).2⟩

/-- `fmt` converts. -/
theorem converts_fmt (put : α → UInt8 → α) :
    Converts put (fmtConvert put) Conversion.Ends fun _ ↦ true where
  unknown := by
    intro s next hnext
    rw [fmtConvert, hnext]
  known := by
    intro s next c a args hnext hargs htakes hends
    rw [fmtConvert_eq hnext hargs htakes hends, Bool.and_true]
    rfl
  mono := fun s s' next h hin ↦ inside_of_fmtConvert h hin
  fits_of_inside := fun s s' next c a args hnext hargs htakes h hin ↦
    ⟨ends_of_fmtConvert hnext hargs htakes h hin, rfl⟩

end

/-! ## The loop -/

section

variable {α : Type} {put : α → UInt8 → α}
  {convert : Printing α → UInt8 → Except Stop (Printing α)} {fits : Conversion → Bytes → Prop}
  {ok : Conversion → Bool} {s s' : Printing α} {l : List UInt8} {next c : UInt8}

theorem formatLoop_percent : formatLoop put convert s ('%'.toUInt8 :: next :: l) =
    convert s next >>= fun s ↦ formatLoop put convert s l := by
  rw [formatLoop.eq_def]
  exact if_pos rfl

theorem formatLoop_plain (hc : c ≠ '%'.toUInt8) : formatLoop put convert s (c :: l) =
    formatLoop put convert (s.write put [c]) l := by
  rw [formatLoop.eq_def]
  exact if_neg hc

/-- What was outside an array at the end of the loop was so before. -/
theorem Converts.mono_loop (h : Converts put convert fits ok)
    (hloop : formatLoop put convert s l = .ok s') (hin : s'.inside = true) :
    s.inside = true := by
  induction l using conversions.induct generalizing s with
  | case1 =>
      cases hloop
      exact hin
  | case2 =>
      cases hloop
      exact hin
  | case3 next rest ih =>
      rw [formatLoop_percent] at hloop
      obtain ⟨s₁, hconvert, hrest⟩ := bind_eq_ok.mp hloop
      exact h.mono _ _ _ hconvert (ih hrest)
  | case4 c rest hc ih =>
      rw [formatLoop_plain hc] at hloop
      have hwrite := ih hloop
      exact hwrite

theorem conversions_percent : conversions ('%'.toUInt8 :: next :: l) =
    (Conversion.ofChar next).toList ++ conversions l := by
  rw [conversions.eq_def]
  exact if_pos rfl

theorem conversions_plain (hc : c ≠ '%'.toUInt8) : conversions (c :: l) = conversions l := by
  rw [conversions.eq_def]
  exact if_neg hc

theorem formatText_plain {args : List VaArg} (hc : c ≠ '%'.toUInt8) :
    formatText (c :: l) args = c :: formatText l args := by
  rw [formatText.eq_def]
  exact if_neg hc

theorem formatText_unknown {args : List VaArg} (hnext : Conversion.ofChar next = none) :
    formatText ('%'.toUInt8 :: next :: l) args = '%'.toUInt8 :: next :: formatText l args := by
  rw [formatText.eq_def]
  simp only [hnext, ↓reduceIte]

theorem formatText_known {k : Conversion} {a : VaArg} {args : List VaArg}
    (hnext : Conversion.ofChar next = some k) :
    formatText ('%'.toUInt8 :: next :: l) (a :: args) = k.text a ++ formatText l args := by
  rw [formatText.eq_def]
  simp only [hnext, ↓reduceIte]

/-- **A call on a format whose conversions fit** writes its text. -/
theorem Converts.formatLoop_eq (h : Converts put convert fits ok)
    (hmatches : Matches (conversions l) s.args)
    (hfits : Everywhere (fun k _ mem ↦ fits k mem) (conversions l) s.args s.locals) :
    ∃ s', formatLoop put convert s l = .ok s' ∧
      s'.out = (formatText l s.args).foldl put s.out ∧
      s'.inside = (s.inside && (conversions l).all ok) := by
  induction l using conversions.induct generalizing s with
  | case1 => exact ⟨s, rfl, rfl, (Bool.and_true _).symm⟩
  | case2 => exact ⟨s, rfl, rfl, (Bool.and_true _).symm⟩
  | case3 next rest ih =>
      rw [formatLoop_percent]
      rw [conversions_percent] at hmatches hfits ⊢
      cases hnext : Conversion.ofChar next with
      | none =>
          rw [hnext] at hmatches hfits
          obtain ⟨s', hloop, hout, hin⟩ :=
            ih (s := s.write put ['%'.toUInt8, next]) hmatches hfits
          rw [h.unknown s next hnext, ok_bind, formatText_unknown hnext]
          exact ⟨s', hloop, hout, hin⟩
      | some k =>
          rw [hnext] at hmatches hfits
          cases hargs : s.args with
          | nil =>
              rw [hargs] at hmatches
              cases hmatches
          | cons a args =>
              rw [hargs] at hmatches hfits
              obtain ⟨htakes, hmatches⟩ := List.forall₂_cons.mp hmatches
              obtain ⟨hk, hfits⟩ := everywhere_cons.mp hfits
              have htail : s.next.args = args := congrArg List.tail hargs
              rw [← htail] at hmatches hfits
              obtain ⟨s', hloop, hout, hin⟩ := ih
                (s := { s.next.write put (k.text a) with inside := s.inside && ok k })
                hmatches hfits
              rw [h.known s next k a args hnext hargs htakes hk, ok_bind, formatText_known hnext]
              refine ⟨s', hloop, ?_, ?_⟩
              · rw [hout, List.foldl_append, ← htail]
                rfl
              · rw [hin, Bool.and_assoc]
                rfl
  | case4 c rest hc ih =>
      rw [formatLoop_plain hc, formatText_plain hc]
      rw [conversions_plain hc] at hmatches hfits ⊢
      exact ih (s := s.write put [c]) hmatches hfits

/-- If no array was left, every conversion fits. -/
theorem Converts.everywhere_fits (h : Converts put convert fits ok)
    (hmatches : Matches (conversions l) s.args) (hloop : formatLoop put convert s l = .ok s')
    (hin : s'.inside = true) : Everywhere (fun k _ mem ↦ fits k mem ∧ ok k = true)
      (conversions l) s.args s.locals := by
  induction l using conversions.induct generalizing s with
  | case1 => exact everywhere_nil
  | case2 => exact everywhere_nil
  | case3 next rest ih =>
      rw [formatLoop_percent] at hloop
      rw [conversions_percent] at hmatches ⊢
      obtain ⟨s₁, hconvert, hrest⟩ := bind_eq_ok.mp hloop
      cases hnext : Conversion.ofChar next with
      | none =>
          rw [hnext] at hmatches
          rw [h.unknown s next hnext] at hconvert
          cases hconvert
          have htail := ih (s := s.write put ['%'.toUInt8, next]) hmatches hrest
          exact htail
      | some k =>
          rw [hnext] at hmatches
          cases hargs : s.args with
          | nil =>
              rw [hargs] at hmatches
              cases hmatches
          | cons a args =>
              rw [hargs] at hmatches
              obtain ⟨htakes, hmatches⟩ := List.forall₂_cons.mp hmatches
              have hin₁ := h.mono_loop hrest hin
              have hk := h.fits_of_inside s s₁ next k a args hnext hargs htakes hconvert hin₁
              have htail : s.next.args = args := congrArg List.tail hargs
              rw [h.known s next k a args hnext hargs htakes hk.1] at hconvert
              cases hconvert
              rw [← htail] at hmatches
              have hrest := ih
                (s := { s.next.write put (k.text a) with inside := s.inside && ok k })
                hmatches hrest
              exact everywhere_cons.mpr ⟨hk, htail ▸ hrest⟩
  | case4 c rest hc ih =>
      rw [formatLoop_plain hc] at hloop
      rw [conversions_plain hc] at hmatches ⊢
      have htail := ih (s := s.write put [c]) hmatches hloop
      exact htail

/-- The text has no zero if the format has none, and nothing that is written for an argument. -/
theorem zero_notMem_formatText {args : List VaArg} (hl : 0 ∉ l)
    (hmatches : Matches (conversions l) args) (locals : Nat → Bytes) :
    0 ∉ formatText l args ↔
      Everywhere (fun k a _ ↦ 0 ∉ k.text a) (conversions l) args locals := by
  induction l using conversions.induct generalizing args locals with
  | case1 => exact ⟨fun _ ↦ everywhere_nil, fun _ ↦ hl⟩
  | case2 => exact ⟨fun _ ↦ everywhere_nil, fun _ ↦ List.not_mem_nil⟩
  | case3 next rest ih =>
      rw [conversions_percent] at hmatches ⊢
      rw [List.mem_cons, not_or, List.mem_cons, not_or] at hl
      obtain ⟨hpercent, hzero, hl⟩ := hl
      cases hnext : Conversion.ofChar next with
      | none =>
          rw [hnext] at hmatches
          rw [formatText_unknown hnext, List.mem_cons, not_or, List.mem_cons, not_or]
          have htail := ih hl hmatches locals
          exact ⟨fun h ↦ htail.mp h.2.2, fun h ↦ ⟨hpercent, hzero, htail.mpr h⟩⟩
      | some k =>
          rw [hnext] at hmatches
          cases hargs : args with
          | nil =>
              rw [hargs] at hmatches
              cases hmatches
          | cons a args =>
              rw [hargs] at hmatches
              obtain ⟨-, hmatches⟩ := List.forall₂_cons.mp hmatches
              change _ ↔ Everywhere _ (k :: conversions rest) (a :: args) locals
              rw [formatText_known hnext, List.mem_append, not_or,
                ih hl hmatches fun i ↦ locals (i + 1), everywhere_cons]
  | case4 c rest hc ih =>
      rw [conversions_plain hc] at hmatches ⊢
      rw [List.mem_cons, not_or] at hl
      rw [formatText_plain hc, List.mem_cons, not_or, ih hl.2 hmatches locals]
      exact ⟨fun h ↦ h.2, fun h ↦ ⟨hl.1, h⟩⟩

end

/-! ## Both functions -/

section

variable {format : CString} {args : List VaArg} {buffer : Bytes}

/-- The buffer of `fmt`, as characters are stored. -/
theorem foldl_storeNext (buffer : Bytes) (text : List UInt8) :
    text.foldl storeNext (buffer, 0) = (buffer.splice 0 text, text.length) := by
  induction text using List.reverseRecOn with
  | nil =>
      rw [Bytes.splice_nil]
      rfl
  | append_singleton text c ih =>
      have hend := Bytes.splice_append buffer 0 text [c]
      rw [Nat.zero_add] at hend
      rw [List.foldl_append, ih, List.foldl_cons, List.foldl_nil, storeNext,
        Bytes.update_eq_splice, hend, List.length_append]
      rfl

/-- The characters that go to `kputc`, one behind the other. -/
theorem foldl_snoc (sent text : List UInt8) :
    text.foldl (fun sent c ↦ sent ++ [c]) sent = sent ++ text := by
  induction text generalizing sent with
  | nil => exact (List.append_nil sent).symm
  | cons c text ih => rw [List.foldl_cons, ih, List.append_assoc, List.singleton_append]

/-- `fmt` leaves in its buffer the characters that `kprintf` sends to `kputc`, as a string, and
both stay inside their arrays. -/
def Agree (buffer : Bytes) (format : CString) (args : List VaArg)
    (localsP localsF : Nat → Bytes) : Prop :=
  ∃ p f, kprintf (fun sent c ↦ sent ++ [c]) [] format args localsP = .ok p ∧
    fmt buffer format args localsF = .ok f ∧ f.out.IsString p.out ∧ 0 ∉ p.out ∧
    p.inside = true ∧ f.inside = true

/-- `kprintf` sends the text of the format. -/
theorem kprintf_eq {α : Type} (put : α → UInt8 → α) (out : α) (locals : Nat → Bytes)
    (hmatches : Matches (conversions format.chars) args) :
    ∃ p, kprintf put out format args locals = .ok p ∧
      p.out = (formatText format.chars args).foldl put out ∧
      p.inside = (conversions format.chars).all Conversion.fitsKprintf := by
  obtain ⟨p, hloop, hout, hin⟩ := (converts_kprintf put).formatLoop_eq
    (s := ⟨args, locals, out, true⟩) hmatches fun _ _ _ _ _ ↦ trivial
  exact ⟨p, hloop, hout, by rw [hin, Bool.true_and]⟩

/-- `fmt` stores the text of the format, if a zero is behind the digits in each array. -/
theorem fmt_eq (buffer : Bytes) {locals : Nat → Bytes}
    (hmatches : Matches (conversions format.chars) args)
    (hends : Everywhere (fun k _ mem ↦ k.Ends mem) (conversions format.chars) args locals) :
    ∃ f, fmt buffer format args locals = .ok f ∧
      f.out = buffer.splice 0 (formatText format.chars args ++ [0]) ∧ f.inside = true := by
  obtain ⟨f, hloop, hout, hin⟩ := (converts_fmt storeNext).formatLoop_eq
    (s := ⟨args, locals, (buffer, 0), true⟩) hmatches hends
  have hend := Bytes.splice_append buffer 0 (formatText format.chars args) [0]
  rw [Nat.zero_add] at hend
  refine ⟨⟨f.args, f.locals, Function.update f.out.1 f.out.2 0, f.inside⟩, ?_, ?_, ?_⟩
  · rw [fmt, hloop]
    rfl
  · rw [hout, foldl_storeNext, ← hend, Bytes.update_eq_splice]
  · rw [hin, Bool.true_and]
    exact List.all_eq_true.mpr fun _ _ ↦ rfl

/-- What makes both functions do the same for one conversion. -/
theorem Conversion.same_iff {k : Conversion} {a : VaArg} {mem : Bytes} (htakes : k.Takes a) :
    k.Same a mem ↔ k.fitsKprintf = true ∧ k.Ends mem ∧ 0 ∉ k.text a := by
  cases a with
  | string str =>
      cases htakes.eq_string
      exact ⟨fun _ ↦ ⟨rfl, trivial, str.nonzero⟩, fun _ ↦ trivial⟩
  | word w =>
      cases k with
      | string => exact htakes.elim
      | char =>
          have hchar : 0 ∉ [toChar w.toInt] ↔ toChar w.toInt ≠ 0 := by
            rw [List.mem_singleton, Ne, eq_comm]
          exact ⟨fun h ↦ ⟨rfl, trivial, hchar.mpr h⟩, fun h ↦ hchar.mp h.2.2⟩
      | signed => exact ⟨False.elim, fun h ↦ nomatch h.1⟩
      | unsigned => exact ⟨False.elim, fun h ↦ nomatch h.1⟩
      | hex => exact ⟨fun h ↦ ⟨rfl, h, zero_notMem_hexText _⟩, fun h ↦ h.2.1⟩
      | bin => exact ⟨fun h ↦ ⟨rfl, h, zero_notMem_binText _⟩, fun h ↦ h.2.1⟩

theorem Matches.everywhere {cs : List Conversion} (h : Matches cs args) (locals : Nat → Bytes) :
    Everywhere (fun k a _ ↦ k.Takes a) cs args locals := by
  induction h generalizing locals with
  | nil => exact everywhere_nil
  | cons hhead _ ih => exact everywhere_cons.mpr ⟨hhead, ih _⟩

/-- Something that holds of each conversion with its argument holds of all conversions. -/
theorem Everywhere.all {cs : List Conversion} {ok : Conversion → Bool} (locals : Nat → Bytes)
    (h : Everywhere (fun k _ _ ↦ ok k = true) cs args locals) (hmatches : Matches cs args) :
    cs.all ok = true := by
  refine List.all_eq_true.mpr fun k hk ↦ ?_
  obtain ⟨i, hi⟩ := List.getElem?_of_mem hk
  have hlt : i < args.length := by
    rw [← List.Forall₂.length_eq hmatches]
    exact (List.getElem?_eq_some_iff.mp hi).1
  exact h i k args[i] hi (List.getElem?_eq_getElem hlt)

/-- **`fmt` and `kprintf` agree** exactly if no number is printed in decimal, each `%x` and `%b` of
`fmt` finds a zero behind its digits, and each `%c` is given a character that is not zero. -/
theorem agree_iff {localsP localsF : Nat → Bytes}
    (hmatches : Matches (conversions format.chars) args) :
    Agree buffer format args localsP localsF ↔
      Everywhere Conversion.Same (conversions format.chars) args localsF := by
  obtain ⟨p, hp, hpout, hpin⟩ :=
    kprintf_eq (fun (sent : List UInt8) c ↦ sent ++ [c]) [] localsP hmatches
  rw [foldl_snoc, List.nil_append] at hpout
  have htakes := hmatches.everywhere localsF
  constructor
  · rintro ⟨p', f, hp', hf, -, hzero, hinP, hinF⟩
    cases hp.symm.trans hp'
    obtain ⟨s, hloop, hs⟩ := bind_eq_ok.mp hf
    cases hs
    have hends := (converts_fmt storeNext).everywhere_fits hmatches hloop hinF
    have hzeros := (zero_notMem_formatText format.nonzero hmatches localsF).mp (hpout ▸ hzero)
    intro i k a hk ha
    have hfits := List.all_eq_true.mp (hpin.symm.trans hinP) k (List.mem_of_getElem? hk)
    exact (Conversion.same_iff (htakes i k a hk ha)).mpr
      ⟨hfits, (hends i k a hk ha).1, hzeros i k a hk ha⟩
  · intro hsame
    have hall : ∀ i (k : Conversion) a, (conversions format.chars)[i]? = some k → args[i]? = some a →
        k.fitsKprintf = true ∧ k.Ends (localsF i) ∧ 0 ∉ k.text a := fun i k a hk ha ↦
      (Conversion.same_iff (htakes i k a hk ha)).mp (hsame i k a hk ha)
    have hfits : (conversions format.chars).all Conversion.fitsKprintf = true :=
      Everywhere.all localsF (fun i k a hk ha ↦ (hall i k a hk ha).1) hmatches
    have hzero : 0 ∉ formatText format.chars args :=
      (zero_notMem_formatText format.nonzero hmatches localsF).mpr
        fun i k a hk ha ↦ (hall i k a hk ha).2.2
    obtain ⟨f, hf, hfout, hfin⟩ := fmt_eq buffer hmatches fun i k a hk ha ↦ (hall i k a hk ha).2.1
    refine ⟨p, f, hp, hf, ?_, hpout ▸ hzero, hpin.trans hfits, hfin⟩
    have hstring := Bytes.isString_splice buffer 0 (formatText format.chars args)
    rwa [hpout, hfout, ← Bytes.drop_zero (buffer.splice _ _)]

/-- They agree on a character and a hexadecimal number, in memory full of zeros. -/
theorem agree_char_hex : Agree (fun _ ↦ 0) (.literal "%c%x") [.word 65, .word 17]
    (fun _ _ ↦ 0) fun _ _ ↦ 0 := by
  have hmatches : Matches (conversions (CString.literal "%c%x").chars) [.word 65, .word 17] :=
    .cons trivial (.cons trivial .nil)
  have hchar : toChar (65 : Word).toInt ≠ 0 := by decide
  exact (agree_iff hmatches).mpr
    (everywhere_cons.mpr ⟨hchar, everywhere_cons.mpr ⟨rfl, everywhere_nil⟩⟩)

/-- `%x`, where the array of `fmt` ends in an `A`: that is copied as well. -/
theorem not_agree : ¬ ∀ (buffer : Bytes) (format : CString) (args : List VaArg)
    (localsP localsF : Nat → Bytes), Matches (conversions format.chars) args →
    Agree buffer format args localsP localsF := by
  intro h
  have hmatches : Matches (conversions (CString.literal "%x").chars) [.word 0] :=
    .cons trivial .nil
  obtain ⟨p, f, -, hf, -, -, -, hin⟩ := h (fun _ ↦ 0) (.literal "%x") [.word 0]
    (fun _ _ ↦ 0) (fun _ i ↦ if i = 8 then 65 else 0) hmatches
  obtain ⟨s, hloop, hs⟩ := bind_eq_ok.mp hf
  cases hs
  have hends := (converts_fmt storeNext).everywhere_fits hmatches hloop hin
  have hzero : (65 : UInt8) = 0 := (hends 0 .hex (.word 0) rfl rfl).1
  exact absurd hzero (by decide)

end

/-! ## Unsigned numbers -/

/-- `%u` of `kprintf` and of `fmt` writes the numeral of an unsigned number. -/
def PrintsUnsigned (u : Word) : Prop :=
  ∃ text, IsNumeral text u.toNat ∧
    ∀ {α : Type} (put : α → UInt8 → α) (s : Printing α) (args : List VaArg),
      s.args = .word u :: args →
      (∃ s', kprintfConvert put s 'u'.toUInt8 = .ok s' ∧ s'.out = text.foldl put s.out) ∧
      ∃ s', fmtConvert put s 'u'.toUInt8 = .ok s' ∧ s'.out = text.foldl put s.out

theorem toInt_nonneg_iff (u : Word) : 0 ≤ u.toInt ↔ u.toNat < 2 ^ 31 := by
  rw [BitVec.toInt_eq_toNat_cond]
  have hlt := u.isLt
  split
  · omega
  · omega

/-- It writes the numeral of the number as a signed one. -/
theorem printsUnsigned_iff (u : Word) : PrintsUnsigned u ↔ u.toNat < 2 ^ 31 := by
  have hnext : Conversion.ofChar 'u'.toUInt8 = some .unsigned := by decide
  constructor
  · rintro ⟨text, hnumeral, hprints⟩
    obtain ⟨⟨s', hkprintf, hout⟩, -⟩ := hprints (fun (sent : List UInt8) c ↦ sent ++ [c])
      ⟨[.word u], fun _ _ ↦ 0, [], true⟩ [] rfl
    have htakes : Conversion.unsigned.Takes (.word u) := trivial
    rw [kprintfConvert_eq hnext rfl htakes] at hkprintf
    cases hkprintf
    have htext : numberText u.toInt = text := by
      have heq := (foldl_snoc [] (numberText u.toInt)).symm.trans (hout.trans (foldl_snoc [] text))
      rwa [List.nil_append, List.nil_append] at heq
    by_contra hlarge
    have hneg : u.toInt < 0 := by
      rw [← toInt_nonneg_iff] at hlarge
      omega
    have hparse := hnumeral.parse
    rw [← htext, parseInt_numberText hneg] at hparse
    cases hparse
  · intro hsmall
    have hnonneg : 0 ≤ u.toInt := (toInt_nonneg_iff u).mpr hsmall
    have hvalue : u.toInt = u.toNat := BitVec.toInt_eq_toNat_of_lt (by omega)
    refine ⟨numberText u.toInt, hvalue ▸ isNumeral_numberText hnonneg, ?_⟩
    intro α put s args hargs
    have htakes : Conversion.unsigned.Takes (.word u) := trivial
    exact ⟨⟨_, kprintfConvert_eq hnext hargs htakes, rfl⟩,
      ⟨_, fmtConvert_eq hnext hargs htakes trivial, rfl⟩⟩

/-- **Decimal numbers**: signed ones are right exactly if they are not negative, and unsigned ones
exactly below 2^31. -/
theorem decimal_iff (w u : Word) :
    (RendersDecimal w.toInt ↔ 0 ≤ w.toInt) ∧ (PrintsUnsigned u ↔ u.toNat < 2 ^ 31) :=
  ⟨rendersDecimal_iff, printsUnsigned_iff u⟩

/-- A minus and the character in front of `0` are no numeral of -1. -/
theorem not_decimal : ¬ ∀ w u : Word, RendersDecimal w.toInt ∧ PrintsUnsigned u := by
  intro h
  have hnonneg := rendersDecimal_iff.mp (h (-1) 0).1
  revert hnonneg
  decide

end Yorha.Io
