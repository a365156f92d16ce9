import Vyre.Lib.ByteCodec

/-!
# Byte strings as words

A byte string whose length is a multiple of four is the little-endian form of a
list of 32-bit words. Reading or writing four bytes at a word boundary is
reading or writing one word of the list.
-/

namespace Words

open ByteCodec List

variable (ws : List UInt32)

/-- The words, little-endian. -/
def toBytes : List UInt8 := ws.flatMap fun w => leBytes 4 w.toNat

@[simp] theorem toBytes_nil : toBytes [] = [] := rfl

@[simp] theorem toBytes_cons (w : UInt32) (ws : List UInt32) :
    toBytes (w :: ws) = leBytes 4 w.toNat ++ toBytes ws := rfl

@[simp] theorem length_toBytes : (toBytes ws).length = 4 * ws.length := by
  induction ws with
  | nil => rfl
  | cons w ws ih =>
    simp only [toBytes_cons, length_append, leBytes_length, length_cons]
    omega

/-- Cutting at a word boundary cuts the list. -/
theorem drop_toBytes (k : Nat) :
    (toBytes ws).drop (4 * k) = toBytes (ws.drop k) := by
  induction k generalizing ws with
  | zero => rfl
  | succ k ih =>
    cases ws with
    | nil => simp
    | cons w ws =>
      have hsplit : 4 * (k + 1) = (leBytes 4 w.toNat).length + 4 * k := by
        rw [leBytes_length]
        omega
      rw [toBytes_cons, hsplit, drop_length_add_append, ih, drop_succ_cons]

theorem take_toBytes (k : Nat) :
    (toBytes ws).take (4 * k) = toBytes (ws.take k) := by
  induction k generalizing ws with
  | zero => simp
  | succ k ih =>
    cases ws with
    | nil => simp
    | cons w ws =>
      have hsplit : 4 * (k + 1) = (leBytes 4 w.toNat).length + 4 * k := by
        rw [leBytes_length]
        omega
      rw [toBytes_cons, hsplit, take_length_add_append, ih, take_succ_cons, toBytes_cons]

theorem toBytes_append (ws ws' : List UInt32) :
    toBytes (ws ++ ws') = toBytes ws ++ toBytes ws' := by
  simp [toBytes]

/-- Four bytes at a word boundary are the word. -/
theorem ofLeBytes_drop_toBytes {ws : List UInt32} {k : Nat} (h : k < ws.length) :
    UInt32.ofNat (ofLeBytes (((toBytes ws).drop (4 * k)).take 4)) = ws[k] := by
  rw [drop_toBytes, drop_eq_getElem_cons h, toBytes_cons, take_left' (leBytes_length _ _),
    ofLeBytes_leBytes (by simpa using (ws[k]).toNat_lt), UInt32.ofNat_toNat]

/-- Writing them replaces the word. -/
theorem overwrite_toBytes {ws : List UInt32} {k : Nat} (h : k < ws.length) (v : UInt32) :
    (toBytes ws).take (4 * k) ++ leBytes 4 v.toNat ++ (toBytes ws).drop (4 * k + 4) =
      toBytes (ws.set k v) := by
  have hnext : 4 * k + 4 = 4 * (k + 1) := by omega
  rw [hnext, take_toBytes, drop_toBytes, set_eq_take_append_cons_drop, if_pos h, toBytes_append,
    toBytes_cons, append_assoc]

/-- Every string of such a length is made of words. -/
theorem exists_toBytes {bytes : List UInt8} {n : Nat} (h : bytes.length = 4 * n) :
    ∃ ws, ws.length = n ∧ bytes = toBytes ws := by
  induction n generalizing bytes with
  | zero => exact ⟨[], rfl, length_eq_zero_iff.mp h⟩
  | succ n ih =>
    have htail : (bytes.drop 4).length = 4 * n := by
      rw [length_drop]
      omega
    obtain ⟨ws, hlength, htail⟩ := ih htail
    have hhead : (bytes.take 4).length = 4 := by
      rw [length_take]
      omega
    have hword := leBytes_ofLeBytes (bytes.take 4)
    have hbound := ofLeBytes_lt (bytes.take 4)
    rw [hhead] at hword hbound
    refine ⟨UInt32.ofNat (ofLeBytes (bytes.take 4)) :: ws, by simp [hlength], ?_⟩
    rw [toBytes_cons, UInt32.toNat_ofNat_of_lt' (by simpa using hbound), hword, ← htail,
      take_append_drop]

end Words
