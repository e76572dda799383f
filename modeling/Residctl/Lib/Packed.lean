import Mathlib.Data.List.GetD
import Mathlib.Data.Nat.ModEq
import Mathlib.Data.Vector.Basic

/-!
# Packed binary records

A `Packed` layout writes values of a type on a fixed number of bytes and reads them back,
whatever follows. Layouts of fields compose (`seq`), and a file of records cut at any byte
holds the complete ones (`records_take`).
-/

/-! ## Little-endian numbers -/

namespace LittleEndian

/-- The `w` low bytes of `x`, the lowest first. -/
def toBytes : ℕ → ℕ → List UInt8
  | 0, _ => []
  | w + 1, x => UInt8.ofNat x :: toBytes w (x / 256)

/-- The number of a list of bytes, the lowest first. -/
def ofBytes (bytes : List UInt8) : ℕ := bytes.foldr (fun b x => b.toNat + 256 * x) 0

@[simp] theorem length_toBytes (w x : ℕ) : (toBytes w x).length = w := by
  induction w generalizing x with
  | zero => rfl
  | succ w ih => rw [toBytes, List.length_cons, ih]

theorem ofBytes_toBytes (w x : ℕ) : ofBytes (toBytes w x) = x % 256 ^ w := by
  induction w generalizing x with
  | zero => simp [toBytes, ofBytes, Nat.mod_one]
  | succ w ih =>
    have hrest : (toBytes w (x / 256)).foldr (fun b x => b.toNat + 256 * x) 0 =
        x / 256 % 256 ^ w := ih (x / 256)
    have hlow : (UInt8.ofNat x).toNat = x % 256 := UInt8.toNat_ofNat'
    rw [ofBytes, toBytes, List.foldr_cons, hrest, hlow, Nat.pow_succ', Nat.mod_mul]

end LittleEndian

open LittleEndian

/-- Values of `α` on `size` bytes. -/
structure Packed (α : Type*) where
  size : ℕ
  write : α → List UInt8
  read : List UInt8 → α
  length_write : ∀ a, (write a).length = size
  read_write : ∀ a rest, read (write a ++ rest) = a

namespace Packed

variable {α β : Type*}

/-- A number of `w` bytes, the lowest first. -/
def word (w : ℕ) (toNat : α → ℕ) (ofNat : ℕ → α) (h : ∀ a, ofNat (toNat a % 256 ^ w) = a) :
    Packed α where
  size := w
  write a := toBytes w (toNat a)
  read bytes := ofNat (ofBytes (bytes.take w))
  length_write a := length_toBytes w (toNat a)
  read_write a rest := by
    rw [List.take_left' (length_toBytes _ _), ofBytes_toBytes, h]

/-- The fixed-width integers of C. -/
def uint8 : Packed UInt8 := word 1 UInt8.toNat UInt8.ofNat fun a => by
  rw [Nat.mod_eq_of_lt (by exact a.toNat_lt), UInt8.ofNat_toNat]

def uint16 : Packed UInt16 := word 2 UInt16.toNat UInt16.ofNat fun a => by
  rw [Nat.mod_eq_of_lt (by exact a.toNat_lt), UInt16.ofNat_toNat]

def uint32 : Packed UInt32 := word 4 UInt32.toNat UInt32.ofNat fun a => by
  rw [Nat.mod_eq_of_lt (by exact a.toNat_lt), UInt32.ofNat_toNat]

def uint64 : Packed UInt64 := word 8 UInt64.toNat UInt64.ofNat fun a => by
  rw [Nat.mod_eq_of_lt (by exact a.toNat_lt), UInt64.ofNat_toNat]

theorem uint8_read_drop {file : List UInt8} {i : ℕ} (h : i < file.length) :
    uint8.read (file.drop i) = file[i] := by
  have hwrite : uint8.write file[i] = [file[i]] := by
    show [UInt8.ofNat file[i].toNat] = _
    rw [UInt8.ofNat_toNat]
  rw [List.drop_eq_getElem_cons h]
  calc uint8.read (file[i] :: file.drop (i + 1))
      = uint8.read (uint8.write file[i] ++ file.drop (i + 1)) := by rw [hwrite]; rfl
    _ = file[i] := uint8.read_write _ _

/-- An array of `k` bytes. -/
def bytes (k : ℕ) : Packed (List.Vector UInt8 k) where
  size := k
  write a := a.toList
  read l := ⟨(l ++ List.replicate k 0).take k, by simp⟩
  length_write a := a.toList_length
  read_write a rest := by
    exact Subtype.ext ((congrArg (List.take k) (List.append_assoc _ _ _)).trans
      (List.take_left' a.toList_length))

theorem bytes_read {k : ℕ} {l : List UInt8} (h : k ≤ l.length) :
    ((bytes k).read l).toList = l.take k :=
  List.take_append_of_le_length h

/-- One field after another. -/
def seq (P : Packed α) (Q : Packed β) : Packed (α × β) where
  size := P.size + Q.size
  write a := P.write a.1 ++ Q.write a.2
  read l := (P.read l, Q.read (l.drop P.size))
  length_write a := by rw [List.length_append, P.length_write, Q.length_write]
  read_write a rest := by
    rw [List.append_assoc, P.read_write, List.drop_left' (P.length_write _), Q.read_write]

/-- The same bytes for another type. -/
def map (P : Packed α) (e : α ≃ β) : Packed β where
  size := P.size
  write b := P.write (e.symm b)
  read l := e (P.read l)
  length_write b := P.length_write _
  read_write b rest := by rw [P.read_write, e.apply_symm_apply]

/-! ## Files of records -/

/-- The complete records of a file. -/
def records (P : Packed α) (file : List UInt8) : List α :=
  (List.range (file.length / P.size)).map fun i => P.read (file.drop (i * P.size))

variable {P : Packed α} {file : List UInt8}

theorem records_short (h : file.length < P.size) : P.records file = [] := by
  rw [records, Nat.div_eq_of_lt h]
  rfl

theorem records_cons (hpos : 0 < P.size) (h : P.size ≤ file.length) :
    P.records file = P.read file :: P.records (file.drop P.size) := by
  have hcount : file.length / P.size = (file.length - P.size) / P.size + 1 :=
    Nat.div_eq_sub_div hpos h
  rw [records, records, hcount, List.range_succ_eq_map, List.map_cons, List.map_map,
    List.length_drop]
  simp only [Nat.zero_mul, List.drop_zero, Function.comp_def, List.drop_drop, Nat.succ_mul,
    Nat.add_comm]

/-- Whatever follows the record. -/
theorem records_write_append (hpos : 0 < P.size) (a : α) (rest : List UInt8) :
    P.records (P.write a ++ rest) = a :: P.records rest := by
  rw [records_cons hpos (by simp [P.length_write]), P.read_write,
    List.drop_left' (P.length_write a)]

theorem length_flatMap_write (l : List α) : (l.flatMap P.write).length = P.size * l.length := by
  induction l with
  | nil => rfl
  | cons a l ih =>
    rw [List.flatMap_cons, List.length_append, P.length_write, ih, List.length_cons, Nat.mul_succ,
      Nat.add_comm]

/-- A file of records cut after `m` bytes. -/
theorem records_take (hpos : 0 < P.size) (l : List α) (m : ℕ) :
    P.records ((l.flatMap P.write).take m) = l.take (m / P.size) := by
  induction l generalizing m with
  | nil =>
    have hnil : P.records [] = [] := records_short hpos
    simp [hnil]
  | cons a l ih =>
    rw [List.flatMap_cons]
    -- the cut is in the first record or behind it
    by_cases hm : m < P.size
    · rw [Nat.div_eq_of_lt hm, List.take_zero]
      exact records_short ((List.length_take_le m _).trans_lt hm)
    · have hle : P.size ≤ m := Nat.le_of_not_lt hm
      have hcut : (P.write a ++ l.flatMap P.write).take m =
          P.write a ++ (l.flatMap P.write).take (m - P.size) := by
        rw [List.take_append, P.length_write, List.take_of_length_le (by rw [P.length_write]; exact hle)]
      rw [hcut, records_write_append hpos, ih, Nat.div_eq_sub_div hpos hle, List.take_succ_cons]

end Packed
