import Mathlib.Logic.Function.Basic
import Yorha.Lib.Simulation

/-!
# Stores of named files

What a file system is for, without blocks, tables or numbers of any size.  A `Store` has
nodes: directories, which give names to nodes, files, which are lists of bytes, and devices,
of which nothing is said.  And it has handles: each is open on a node, and remembers where
the next read and the next write begin.

`Store.Serves` says how a store may answer a request, and what it is afterwards.  Which node a
new file gets is left open; a new handle is the first that is free.  A request names a file by
the names of the directories on the way and its own, or by nothing, when the path does not
start at the root.

A write does what one expects: it puts bytes over those at the cursor, and makes the file longer
where it goes past the end.  It takes no more bytes than the store's capacity leaves room for,
and it leaves no gap.
-/

universe u v w

namespace Yorha.Lib

/-- What a node of a store is. -/
inductive Node (ν : Type u) (ℓ : Type v) (β : Type w) where
  | dir (child : ℓ → Option ν)
  | file (content : List β)
  | device

/-- What an open handle remembers. -/
structure Handle (ν : Type u) where
  node : ν
  readPos : Nat
  writePos : Nat

/-- The nodes that there are, and the handles that are open. -/
@[ext] structure Store (ν : Type u) (ℓ : Type v) (β : Type w) where
  node : ν → Option (Node ν ℓ β)
  handle : Nat → Option (Handle ν)

/-- What can be made. -/
inductive Kind where
  | dir
  | file
  | device
deriving DecidableEq, Repr

/-- Where a handle's cursors go. -/
inductive Move where
  | set (offset : Int)
  | ahead (offset : Int)
  | beforeEnd (offset : Int)
  | stay

/-- Where a cursor is after the move, in a file of a size. -/
def Move.target (size pos : Nat) : Move → Int
  | .set offset => offset
  | .ahead offset => pos + offset
  | .beforeEnd offset => size - offset
  | .stay => pos

/-- What is asked of a store.  A path is the names of the directories and that of the file. -/
inductive Request (ℓ : Type v) (β : Type w) where
  | make (path : Option (List ℓ × ℓ)) (kind : Kind) (opened : Bool)
  | openFile (path : Option (List ℓ × ℓ))
  | close (handle : Option Nat)
  | read (handle : Option Nat) (count : Nat)
  | write (handle : Option Nat) (data : List β)
  | seek (handle : Option Nat) (move : Move)
  | remove (path : Option (List ℓ × ℓ))

/-- What a store answers. -/
inductive Reply (β : Type w) where
  | done
  | refused
  | handle (h : Nat)
  | data (data : List β)
  | accepted (n : Nat)
  | position (pos : Nat)

namespace Store

variable {ν : Type u} {ℓ : Type v} {β : Type w}

/-- What a directory calls by a name. -/
def child (s : Store ν ℓ β) (d : ν) (n : ℓ) : Option ν :=
  match s.node d with
  | some (.dir child) => child n
  | _ => none

/-- Follow names from a node. -/
def walk (s : Store ν ℓ β) : List ℓ → ν → Option ν
  | [], v => some v
  | n :: names, v => (s.child v n).bind (s.walk names)

/-- The node is a directory. -/
def isDir (s : Store ν ℓ β) (d : ν) : Bool :=
  match s.node d with
  | some (.dir _) => true
  | _ => false

theorem child_of_dir {s : Store ν ℓ β} {d : ν} {child : ℓ → Option ν}
    (h : s.node d = some (.dir child)) (n : ℓ) : s.child d n = child n := by
  rw [Store.child, h]

/-- Only directories give names. -/
theorem child_of_not_isDir {s : Store ν ℓ β} {d : ν} (h : s.isDir d = false) (n : ℓ) :
    s.child d n = none := by
  rw [Store.child]
  rw [isDir] at h
  split
  · rename_i hdir
    rw [hdir] at h
    cases h
  · rfl

/-- The directory and the name that a path stands for. -/
def place (s : Store ν ℓ β) (root : ν) : Option (List ℓ × ℓ) → Option (ν × ℓ)
  | some (dirs, n) => (s.walk dirs root).bind fun d ↦ if s.isDir d then some (d, n) else none
  | none => none

/-- The handle is the first one that is not open. -/
def FirstFree (s : Store ν ℓ β) (h : Nat) : Prop :=
  s.handle h = none ∧ ∀ h' < h, s.handle h' ≠ none

/-- Open or close a handle. -/
def setHandle (s : Store ν ℓ β) (h : Nat) (e : Option (Handle ν)) : Store ν ℓ β :=
  { s with handle := Function.update s.handle h e }

variable [DecidableEq ν] [DecidableEq ℓ]

/-- Nothing but an empty root. -/
def empty (root : ν) : Store ν ℓ β :=
  ⟨fun v ↦ if v = root then some (.dir fun _ ↦ none) else none, fun _ ↦ none⟩

/-- Make, change or remove a node. -/
def setNode (s : Store ν ℓ β) (v : ν) (node : Option (Node ν ℓ β)) : Store ν ℓ β :=
  { s with node := Function.update s.node v node }

/-- Let a directory call a node by a name, or nothing. -/
def setChild (s : Store ν ℓ β) (d : ν) (n : ℓ) (v : Option ν) : Store ν ℓ β :=
  s.setNode d (some (.dir (Function.update (s.child d) n v)))

/-- What is made: an empty directory, an empty file, or a device. -/
def made : Kind → Node ν ℓ β
  | .dir => .dir fun _ ↦ none
  | .file => .file []
  | .device => .device

/-- Bytes put over those at a position, and behind the end. -/
def overwrite (content : List β) (pos : Nat) (data : List β) : List β :=
  content.take pos ++ data ++ content.drop (pos + data.length)

/-- Nothing put anywhere changes nothing. -/
@[simp] theorem overwrite_nil (content : List β) (pos : Nat) :
    overwrite content pos [] = content := by
  rw [overwrite, List.append_nil, List.length_nil, Nat.add_zero, List.take_append_drop]

/-- Bytes put behind the end are appended. -/
theorem overwrite_length (content data : List β) :
    overwrite content content.length data = content ++ data := by
  rw [overwrite, List.take_length, List.drop_eq_nil_of_le (Nat.le_add_right _ _),
    List.append_nil]

/-- How a store whose files have room for `capacity` bytes answers a request. -/
inductive Serves (root : ν) (capacity : Nat) :
    Store ν ℓ β → Request ℓ β × Reply β → Store ν ℓ β → Prop
  | made {s : Store ν ℓ β} {path : Option (List ℓ × ℓ)} {kind : Kind} {d v : ν} {n : ℓ} :
      s.place root path = some (d, n) → s.child d n = none → s.node v = none →
      Serves root capacity s (.make path kind false, .done)
        ((s.setChild d n (some v)).setNode v (some (made kind)))
  | madeOpen {s : Store ν ℓ β} {path : Option (List ℓ × ℓ)} {kind : Kind} {d v : ν} {n : ℓ}
      {h : Nat} :
      s.place root path = some (d, n) → s.child d n = none → s.node v = none → s.FirstFree h →
      Serves root capacity s (.make path kind true, .handle h)
        (((s.setChild d n (some v)).setNode v (some (made kind))).setHandle h (some ⟨v, 0, 0⟩))
  | makeRefused {s : Store ν ℓ β} {path : Option (List ℓ × ℓ)} {kind : Kind} {opened : Bool} :
      (∀ d n, s.place root path = some (d, n) → s.child d n ≠ none) →
      Serves root capacity s (.make path kind opened, .refused) s
  | opened {s : Store ν ℓ β} {path : Option (List ℓ × ℓ)} {d v : ν} {n : ℓ} {h : Nat} :
      s.place root path = some (d, n) → s.child d n = some v → s.FirstFree h →
      Serves root capacity s (.openFile path, .handle h) (s.setHandle h (some ⟨v, 0, 0⟩))
  | openRefused {s : Store ν ℓ β} {path : Option (List ℓ × ℓ)} {d : ν} {n : ℓ} :
      s.place root path = some (d, n) → s.child d n = none →
      Serves root capacity s (.openFile path, .refused) s
  | closed {s : Store ν ℓ β} {h : Nat} :
      Serves root capacity s (.close (some h), .done) (s.setHandle h none)
  | closedNone {s : Store ν ℓ β} : Serves root capacity s (.close none, .done) s
  | read {s : Store ν ℓ β} {h count : Nat} {e : Handle ν} {content data : List β} :
      s.handle h = some e → s.node e.node = some (.file content) →
      data = (content.drop e.readPos).take count →
      Serves root capacity s (.read (some h) count, .data data)
        (s.setHandle h (some { e with readPos := e.readPos + data.length }))
  | readDevice {s : Store ν ℓ β} {h count : Nat} {e : Handle ν} {data : List β} :
      s.handle h = some e → s.node e.node = some .device →
      Serves root capacity s (.read (some h) count, .data data) s
  | write {s : Store ν ℓ β} {h : Nat} {e : Handle ν} {content data fits : List β} :
      s.handle h = some e → s.node e.node = some (.file content) →
      fits = data.take (capacity - e.writePos) → (fits = [] ∨ e.writePos ≤ content.length) →
      Serves root capacity s (.write (some h) data, .accepted fits.length)
        ((s.setNode e.node (some (.file (overwrite content e.writePos fits)))).setHandle h
          (some { e with writePos := e.writePos + fits.length }))
  | writeDevice {s : Store ν ℓ β} {h : Nat} {e : Handle ν} {data : List β} {n : Nat} :
      s.handle h = some e → s.node e.node = some .device →
      Serves root capacity s (.write (some h) data, .accepted n) s
  | sought {s : Store ν ℓ β} {h : Nat} {e : Handle ν} {content : List β} {move : Move}
      {readPos writePos : Nat} :
      s.handle h = some e → s.node e.node = some (.file content) →
      (readPos : Int) = move.target content.length e.readPos →
      (writePos : Int) = move.target content.length e.writePos →
      Serves root capacity s (.seek (some h) move, .position readPos)
        (s.setHandle h (some ⟨e.node, readPos, writePos⟩))
  | soughtDevice {s : Store ν ℓ β} {h : Nat} {e : Handle ν} {move : Move} {reply : Reply β}
      {readPos writePos : Nat} :
      s.handle h = some e → s.node e.node = some .device →
      Serves root capacity s (.seek (some h) move, reply)
        (s.setHandle h (some ⟨e.node, readPos, writePos⟩))
  | seekRefused {s : Store ν ℓ β} {h : Option Nat} {move : Move} :
      h.bind s.handle = none → Serves root capacity s (.seek h move, .refused) s
  | removed {s : Store ν ℓ β} {path : Option (List ℓ × ℓ)} {d v : ν} {n : ℓ} :
      s.place root path = some (d, n) → s.child d n = some v → d ≠ v → v ≠ root →
      Serves root capacity s (.remove path, .done) ((s.setChild d n none).setNode v none)
  | removeRefused {s : Store ν ℓ β} {path : Option (List ℓ × ℓ)} {d : ν} {n : ℓ} :
      s.place root path = some (d, n) → s.child d n = none →
      Serves root capacity s (.remove path, .refused) s

end Store

end Yorha.Lib
