import ExprWire.Fault
import ExprWire.Text.Utf8
import ExprWire.Wire.Varint
/-!
Byte buffers that grow by doubling. Everything written is appended to the used part of the storage;
`bytes` is that part.
-/

namespace ExprWire

/-- A number of bytes to begin with; from zero doubling would not get anywhere. -/
structure Capacity where
  size : Nat
  pos : 0 < size

instance (n : Nat) : OfNat Capacity (n + 1) := ⟨n + 1, Nat.succ_pos n⟩

instance : Coe Nat Capacity := ⟨fun n => ⟨n - 1 + 1, Nat.succ_pos _⟩⟩

structure Buffer where
  storage : Array UInt8
  used : Nat
  used_le : used ≤ storage.size
  size_pos : 0 < storage.size

namespace Buffer

def withCapacity (capacity : Capacity) : Buffer where
  storage := Array.replicate capacity.size 0
  used := 0
  used_le := Nat.zero_le _
  size_pos := by rw [Array.size_replicate]; exact capacity.pos

def bytes (buffer : Buffer) : Bytes := buffer.storage.toList.take buffer.used

/-- The first doubling of a capacity that is enough. -/
def doubled (capacity needed : Nat) (pos : 0 < capacity) : Nat :=
  if needed ≤ capacity then capacity else doubled (2 * capacity) needed (by omega)
termination_by needed - capacity

theorem le_doubled (capacity needed : Nat) (pos : 0 < capacity) :
    needed ≤ doubled capacity needed pos := by
  fun_induction doubled capacity needed pos with
  | case1 capacity _ enough => exact enough
  | case2 capacity _ _ ih => exact ih

def reserve (buffer : Buffer) (extra : Nat) : { b : Buffer // b.used + extra ≤ b.storage.size } :=
  if room : buffer.used + extra ≤ buffer.storage.size then ⟨buffer, room⟩
  else
    let needed := buffer.used + extra
    let capacity := doubled buffer.storage.size needed buffer.size_pos
    have enough : needed ≤ capacity := le_doubled _ _ _
    have size : (buffer.storage.take buffer.used ++
        Array.replicate (capacity - buffer.used) 0).size = capacity := by
      have := buffer.used_le
      simp only [Array.take_eq_extract, Array.size_append, Array.size_extract,
        Array.size_replicate]
      omega
    ⟨{ storage := buffer.storage.take buffer.used ++ Array.replicate (capacity - buffer.used) 0
       used := buffer.used
       used_le := by omega
       size_pos := by have := buffer.size_pos; omega }, by simp only [size]; exact enough⟩

def fill (buffer : Buffer) : (bytes : Bytes) →
    buffer.used + bytes.length ≤ buffer.storage.size → Buffer
  | [], _ => buffer
  | byte :: rest, room =>
      have here : buffer.used < buffer.storage.size := by rw [List.length_cons] at room; omega
      fill
        { storage := buffer.storage.set buffer.used byte here
          used := buffer.used + 1
          used_le := by rw [Array.size_set]; exact here
          size_pos := by rw [Array.size_set]; exact buffer.size_pos }
        rest (by rw [List.length_cons] at room; simp only [Array.size_set]; omega)

def append (buffer : Buffer) (bytes : Bytes) : Buffer :=
  let reserved := buffer.reserve bytes.length
  reserved.val.fill bytes reserved.property

@[simp] theorem length_bytes (buffer : Buffer) : buffer.bytes.length = buffer.used := by
  have := buffer.used_le
  rw [bytes, List.length_take, Array.length_toList]
  omega

@[simp] theorem bytes_withCapacity (capacity : Capacity) : (withCapacity capacity).bytes = [] := by
  rw [bytes, withCapacity, List.take_zero]

theorem bytes_reserve (buffer : Buffer) (extra : Nat) :
    (buffer.reserve extra).val.bytes = buffer.bytes := by
  have filled := buffer.used_le
  unfold reserve
  split
  · rfl
  · simp only [bytes, Array.toList_append, Array.take_eq_extract, Array.toList_extract,
      List.extract_eq_take_drop, List.drop_zero, Nat.sub_zero]
    rw [List.take_append_of_le_length]
    · exact List.take_of_length_le (by rw [List.length_take]; omega)
    · rw [List.length_take, Array.length_toList]
      omega

theorem bytes_fill (buffer : Buffer) (bytes : Bytes)
    (room : buffer.used + bytes.length ≤ buffer.storage.size) :
    (buffer.fill bytes room).bytes = buffer.bytes ++ bytes := by
  induction bytes generalizing buffer with
  | nil => rw [fill, List.append_nil]
  | cons byte rest ih =>
      have here : buffer.used < buffer.storage.toList.length := by
        rw [List.length_cons] at room
        rw [Array.length_toList]
        omega
      rw [fill, ih]
      simp only [Buffer.bytes, Array.toList_set]
      rw [List.take_succ_eq_append_getElem (by rw [List.length_set]; exact here),
        List.take_set_of_le (Nat.le_refl _), List.getElem_set_self, List.append_assoc,
        List.singleton_append]

@[simp] theorem bytes_append (buffer : Buffer) (bytes : Bytes) :
    (buffer.append bytes).bytes = buffer.bytes ++ bytes := by
  rw [append, bytes_fill, bytes_reserve]

def int (buffer : Buffer) (width : Nat) (n : Int) : Buffer :=
  buffer.append (Bytes.littleEndian width (n % (1 <<< (8 * width) : Nat)).toNat)

def byte (buffer : Buffer) (byte : UInt8) : Buffer := buffer.append [byte]

def float32 (buffer : Buffer) (x : Binary32) : Buffer :=
  buffer.append (Bytes.littleEndian 4 x.bits.toNat)

def float64 (buffer : Buffer) (x : Binary64) : Buffer :=
  buffer.append (Bytes.littleEndian 8 x.bits.toNat)

/-- A numeral; room is made for the longest. -/
def varint (buffer : Buffer) (x : Number) : Outcome Buffer :=
  match Varint.value? x with
  | some n => .ok ((buffer.reserve 5).val.append (Varint.encode n))
  | none => raise (.notVarint x)

def blob (buffer : Buffer) (bytes : Bytes) : Outcome Buffer := do
  return (← buffer.varint bytes.length).append bytes

def text (buffer : Buffer) (text : String) : Outcome Buffer := buffer.blob (Text.utf8 text)

def varints (buffer : Buffer) (xs : List Number) : Outcome Buffer := do
  xs.foldlM varint (← buffer.varint xs.length)

end Buffer

end ExprWire
