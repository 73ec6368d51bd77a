/-!
# First in, first out

The plain sequence that the locked queue keeps its values in: values are appended at the back and
removed at the front. It is kept as two lists, the back one reversed, so that both ends are near;
and with its size, so that asking for it costs nothing. `toList` is the sequence itself, oldest
first.
-/

namespace CircularQueue

/-- A sequence of values, oldest first in `front`, newest first in `back`. -/
structure Fifo (α : Type) where
  front : List α
  back : List α
  size : Nat
  size_eq : size = front.length + back.length

namespace Fifo

variable {α : Type}

/-- The values, oldest first. -/
def toList (s : Fifo α) : List α := s.front ++ s.back.reverse

/-- The sequence of the given values, oldest first. -/
def ofList (vs : List α) : Fifo α := ⟨vs, [], vs.length, rfl⟩

/-- The sequence without values. -/
def empty : Fifo α := ofList []

/-- Appends a value. -/
def push (s : Fifo α) (v : α) : Fifo α where
  front := s.front
  back := v :: s.back
  size := s.size + 1
  size_eq := by simp [s.size_eq, Nat.add_assoc]

/-- Removes the oldest value. -/
def pop? (s : Fifo α) : Option α × Fifo α :=
  match hfront : s.front with
  | v :: rest => (some v, ⟨rest, s.back, s.size - 1, by
      simp only [s.size_eq, hfront, List.length_cons]
      omega⟩)
  | [] =>
    match hback : s.back.reverse with
    | v :: rest =>
      (some v, ⟨rest, [], s.size - 1, by
        have hlen := congrArg List.length hback
        simp only [List.length_reverse, List.length_cons] at hlen
        simp [s.size_eq, hfront, hlen]⟩)
    | [] => (none, s)

@[simp] theorem toList_ofList (vs : List α) : (ofList vs).toList = vs := by simp [ofList, toList]

@[simp] theorem toList_empty : (empty : Fifo α).toList = [] := rfl

@[simp] theorem toList_push (s : Fifo α) (v : α) : (s.push v).toList = s.toList ++ [v] := by
  simp [push, toList]

theorem size_eq_length (s : Fifo α) : s.size = s.toList.length := by
  simp [toList, s.size_eq]

theorem pop?_of_toList_nil {s : Fifo α} (h : s.toList = []) : s.pop? = (none, s) := by
  obtain ⟨front, back, size, hsize⟩ := s
  simp only [toList, List.append_eq_nil_iff, List.reverse_eq_nil_iff] at h
  obtain ⟨rfl, rfl⟩ := h
  rfl

theorem pop?_of_toList_cons {s : Fifo α} {v : α} {vs : List α} (h : s.toList = v :: vs) :
    s.pop?.1 = some v ∧ s.pop?.2.toList = vs := by
  obtain ⟨front, back, size, hsize⟩ := s
  cases front with
  | cons w rest =>
    simp only [toList, List.cons_append, List.cons.injEq] at h
    exact ⟨congrArg some h.1, h.2⟩
  | nil =>
    simp only [toList, List.nil_append] at h
    unfold pop?
    split
    · rename_i heq
      cases heq
    · split
      · rename_i heq
        simp only [h] at heq
        cases heq
        simp [toList]
      · rename_i heq
        simp [h] at heq

end Fifo

end CircularQueue
