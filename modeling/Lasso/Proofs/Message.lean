import Lasso.Message
/-!
# Messages can be compared

`Message.same` goes through two messages side by side; it decides whether they are equal (`same_iff`).
-/

namespace Lasso.Message

mutual

/-- Whether two messages are the same. -/
def same : Message → Message → Bool
  | .null, .null => true
  | .bool a, .bool b => a == b
  | .number x, .number y => decide (x = y)
  | .text s, .text t => s == t
  | .list as, .list bs => sameItems as bs
  | .fields as, .fields bs => sameEntries as bs
  | _, _ => false

def sameItems : List Message → List Message → Bool
  | [], [] => true
  | a :: as, b :: bs => same a b && sameItems as bs
  | _, _ => false

def sameEntries : List (String × Message) → List (String × Message) → Bool
  | [], [] => true
  | (k, a) :: as, (l, b) :: bs => k == l && same a b && sameEntries as bs
  | _, _ => false

end

mutual

theorem eq_of_same : ∀ {a b : Message}, same a b = true → a = b
  | .null, b, h => by cases b <;> simp_all [same]
  | .bool a, b, h => by cases b <;> simp_all [same]
  | .number x, b, h => by cases b <;> simp_all [same]
  | .text s, b, h => by cases b <;> simp_all [same]
  | .list as, b, h => by
    cases b with
    | list bs => rw [eq_of_sameItems h]
    | _ => simp [same] at h
  | .fields as, b, h => by
    cases b with
    | fields bs => rw [eq_of_sameEntries h]
    | _ => simp [same] at h

theorem eq_of_sameItems : ∀ {as bs : List Message}, sameItems as bs = true → as = bs
  | [], bs, h => by cases bs <;> simp_all [sameItems]
  | a :: as, bs, h => by
    cases bs with
    | nil => simp [sameItems] at h
    | cons b bs =>
      simp only [sameItems, Bool.and_eq_true] at h
      rw [eq_of_same h.1, eq_of_sameItems h.2]

theorem eq_of_sameEntries : ∀ {as bs : List (String × Message)}, sameEntries as bs = true → as = bs
  | [], bs, h => by cases bs <;> simp_all [sameEntries]
  | (k, a) :: as, bs, h => by
    cases bs with
    | nil => simp [sameEntries] at h
    | cons e bs =>
      obtain ⟨l, b⟩ := e
      simp only [sameEntries, Bool.and_eq_true, beq_iff_eq] at h
      rw [h.1.1, eq_of_same h.1.2, eq_of_sameEntries h.2]

end

mutual

theorem same_self : ∀ a : Message, same a a = true
  | .null => by simp [same]
  | .bool a => by simp [same]
  | .number x => by simp [same]
  | .text s => by simp [same]
  | .list as => by rw [same, sameItems_self as]
  | .fields as => by rw [same, sameEntries_self as]

theorem sameItems_self : ∀ as : List Message, sameItems as as = true
  | [] => by simp [sameItems]
  | a :: as => by rw [sameItems, same_self a, sameItems_self as, Bool.and_self]

theorem sameEntries_self : ∀ as : List (String × Message), sameEntries as as = true
  | [] => by simp [sameEntries]
  | (k, a) :: as => by simp [sameEntries, same_self a, sameEntries_self as]

end

theorem same_iff {a b : Message} : same a b = true ↔ a = b := by
  constructor
  · exact eq_of_same
  · intro h
    rw [h]
    exact same_self b

instance : DecidableEq Message := fun _ _ => decidable_of_iff _ same_iff

end Lasso.Message
