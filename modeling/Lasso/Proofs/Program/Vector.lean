import Mathlib.Algebra.Group.Nat.Defs
import Lasso.Number.Word64
import Lasso.Program.Vector
import Lasso.Proofs.Value.Encoding
/-!
# Location vectors are lists

* `toList_ofBytes` -- **the elements of a vector are read back**, whatever bytes they are;
* `elements_ofList` -- so a vector of locations stands for one list of locations only;
* `ofBytes_concat`, `ofList_concat` -- an element that is put behind a vector is the last one of the list;
* `consumeAll?` -- reading with lengths of 64 bits, which refuses longer ones; **what was packed is not refused**
  (`consumeAll?_ofBytes`);
* `vectors_are_lists` -- vectors are equal, read and extended as the lists of their elements.
-/

namespace Lasso

/-! ## 1. Lengths of 64 bits -/

theorem length_varint_le {n k : Nat} (h : n < 128 ^ (k + 1)) : (varint n).length ≤ k + 1 := by
  induction k generalizing n with
  | zero =>
    have hone : n < 128 := h
    rw [varint, if_pos hone]
    exact Nat.le_refl 1
  | succ k ih =>
    rw [varint]
    split
    · exact Nat.succ_le_succ (Nat.zero_le _)
    · have hdiv : n / 128 < 128 ^ (k + 1) := Nat.div_lt_of_lt_mul (by rwa [Nat.mul_comm, ← Nat.pow_succ])
      exact Nat.succ_le_succ (ih hdiv)

/-- Reads bytes that are preceded by their number. The number has at most ten groups and 64 bits. -/
def consumeBytes? (b : Bytes) : Option (Bytes × Bytes) := do
  let (n, rest) ← readVarint? b
  if b.length ≤ rest.length + 10 ∧ n < Word64.count ∧ n ≤ rest.length then
    some (rest.take n, rest.drop n)
  else none

theorem consumeBytes?_encodeBytes {b : Bytes} (h : b.length < Word64.count) (rest : Bytes) :
    consumeBytes? (encodeBytes b ++ rest) = some (b, rest) := by
  have hgroups : (varint b.length).length ≤ 10 := by
    refine length_varint_le (k := 9) (Nat.lt_trans h ?_)
    decide
  have hfit : (varint b.length ++ (b ++ rest)).length ≤ (b ++ rest).length + 10 := by
    rw [List.length_append]
    omega
  have hlen : b.length ≤ (b ++ rest).length := by
    rw [List.length_append]
    omega
  rw [consumeBytes?, encodeBytes, List.append_assoc, readVarint?_varint]
  show (if _ then some ((b ++ rest).take b.length, (b ++ rest).drop b.length) else none) = _
  rw [if_pos ⟨hfit, h, hlen⟩, List.take_left, List.drop_left]

namespace LocationVector

/-! ## 2. Elements as bytes -/

variable {xs ys : List Bytes} {x y : Bytes}

theorem packed_foldl_push (bs : List Bytes) (v : LocationVector) :
    (bs.foldl push v).packed = v.packed ++ bs.flatMap encodeBytes := by
  induction bs generalizing v with
  | nil => rw [List.foldl_nil, List.flatMap_nil, List.append_nil]
  | cons b bs ih =>
    rw [List.foldl_cons, ih, List.flatMap_cons, ← List.append_assoc]
    rfl

theorem packed_ofBytes (bs : List Bytes) : (ofBytes bs).packed = bs.flatMap encodeBytes :=
  packed_foldl_push bs ∅

/-- **What was packed can be read.** -/
theorem unpack?_ofBytes (bs : List Bytes) : unpack? (ofBytes bs).packed = some bs := by
  rw [packed_ofBytes]
  exact readAll?_flatMap fun b _ => readBytes?_encodeBytes b

/-- **The elements of a vector are read back.** -/
theorem toList_ofBytes (bs : List Bytes) : (ofBytes bs).toList = bs := by
  rw [toList, unpack?_ofBytes]
  rfl

theorem ofBytes_inj : ofBytes xs = ofBytes ys ↔ xs = ys := by
  refine ⟨fun h => ?_, fun h => h ▸ rfl⟩
  rw [← toList_ofBytes xs, h, toList_ofBytes]

theorem ofBytes_concat (bs : List Bytes) (b : Bytes) : ofBytes (bs ++ [b]) = (ofBytes bs).push b := by
  rw [ofBytes, List.foldl_append]
  rfl

/-- **Nothing is lost by putting an element behind a vector**: both can be told from the result. -/
theorem push_inj : (ofBytes xs).push x = (ofBytes ys).push y ↔ ofBytes xs = ofBytes ys ∧ x = y := by
  rw [← ofBytes_concat, ← ofBytes_concat, ofBytes_inj, ofBytes_inj, List.append_singleton_inj]

theorem length_lt_of_consumeBytes? {b l rest : Bytes} (h : consumeBytes? b = some (l, rest)) :
    rest.length < b.length := by
  obtain ⟨⟨n, r⟩, hn, h⟩ := Option.bind_eq_some_iff.mp h
  obtain ⟨-, h⟩ := Option.ite_none_right_eq_some.mp h
  cases h
  have hlt := length_lt_of_readVarint? hn
  rw [List.length_drop]
  omega

/-- Reads the elements out of a packed vector, and refuses lengths of more than 64 bits. -/
def consumeAll? (b : Bytes) : Option (List Bytes) := readAll? consumeBytes? length_lt_of_consumeBytes? b

/-- **No vector of elements that have a length of 64 bits is refused.** -/
theorem consumeAll?_ofBytes (h : ∀ x ∈ xs, x.length < Word64.count) :
    consumeAll? (ofBytes xs).packed = some xs := by
  rw [packed_ofBytes]
  exact readAll?_flatMap fun x hx => consumeBytes?_encodeBytes (h x hx)

/-! ## 3. Elements as texts -/

theorem ofList_eq_ofBytes (ls : List String) : ofList ls = ofBytes (ls.map Bytes.ofString) := by
  rw [ofBytes, List.foldl_map]
  rfl

theorem elements_ofList (ls : List String) : (ofList ls).elements = ls := by
  have hid : Bytes.text ∘ Bytes.ofString = id := funext Bytes.text_ofString
  rw [elements, ofList_eq_ofBytes, toList_ofBytes, List.map_map, hid, List.map_id]

theorem ofList_concat (ls : List String) (l : String) : ofList (ls ++ [l]) = (ofList ls).append l := by
  rw [ofList, List.foldl_append]
  rfl

theorem ofList_inj {ls ms : List String} : ofList ls = ofList ms ↔ ls = ms := by
  refine ⟨fun h => ?_, fun h => h ▸ rfl⟩
  rw [← elements_ofList ls, h, elements_ofList]

theorem size_ofList (ls : List String) : (ofList ls).size = ls.length := by
  rw [size, elements_ofList]

/-- **Vectors are lists.** Whatever bytes the elements are and however many there are: they are read back and
    reading them is not refused, two vectors are equal exactly if their elements are, an element put behind a
    vector is put behind the list, and vector and element are known from the result. Vectors of texts behave in
    the same way. -/
theorem vectors_are_lists :
    (∀ xs : List Bytes, unpack? (ofBytes xs).packed = some xs ∧ (ofBytes xs).toList = xs) ∧
    (∀ xs : List Bytes, (∀ x ∈ xs, x.length < Word64.count) →
      consumeAll? (ofBytes xs).packed = some xs) ∧
    (∀ xs ys : List Bytes, ofBytes xs = ofBytes ys ↔ xs = ys) ∧
    (∀ (xs : List Bytes) (y : Bytes), (ofBytes xs).push y = ofBytes (xs ++ [y])) ∧
    (∀ (xs ys : List Bytes) (x y : Bytes),
      (ofBytes xs).push x = (ofBytes ys).push y ↔ ofBytes xs = ofBytes ys ∧ x = y) ∧
    (∀ (ls ms : List String) (l : String),
      (ofList ls).elements = ls ∧ (ofList ls).size = ls.length ∧ (ofList ls = ofList ms ↔ ls = ms) ∧
        (ofList ls).append l = ofList (ls ++ [l])) :=
  ⟨fun xs => ⟨unpack?_ofBytes xs, toList_ofBytes xs⟩, fun _ => consumeAll?_ofBytes, fun _ _ => ofBytes_inj,
    fun xs y => (ofBytes_concat xs y).symm, fun _ _ _ _ => push_inj,
    fun ls _ l => ⟨elements_ofList ls, size_ofList ls, ofList_inj, (ofList_concat ls l).symm⟩⟩

/-- Elements that look like lengths, an empty one, and a stray byte. -/
theorem vectors_are_lists_prefixes :
    let xs : List Bytes := [[1, 2], [], [0x80], [2, 1, 0]]
    (∀ x ∈ xs, x.length < Word64.count) ∧ consumeAll? (ofBytes xs).packed = some xs ∧
      (ofBytes xs).push [3] = ofBytes [[1, 2], [], [0x80], [2, 1, 0], [3]] :=
  have h : ∀ x ∈ ([[1, 2], [], [0x80], [2, 1, 0]] : List Bytes), x.length < Word64.count := by decide
  ⟨h, vectors_are_lists.2.1 _ h, vectors_are_lists.2.2.2.1 _ _⟩

end LocationVector

end Lasso
