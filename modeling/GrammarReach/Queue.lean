namespace GrammarReach

/-- A queue: elements to hand out in order, and later arrivals with the latest one first. -/
structure Queue (α : Type) where
  front : List α := []
  back : List α := []

namespace Queue

variable {α : Type}

def empty : Queue α := {}

/-- The queue that hands out a list in order. -/
def ofList (items : List α) : Queue α := { front := items }

/-- The elements in the order in which they will be handed out. -/
def toList (queue : Queue α) : List α := queue.front ++ queue.back.reverse

/-- Adds an element behind all others. -/
def push (queue : Queue α) (item : α) : Queue α := { queue with back := item :: queue.back }

/-- Takes the oldest element. -/
def pop? (queue : Queue α) : Option (α × Queue α) :=
  match queue.front with
  | item :: rest => some (item, { queue with front := rest })
  | [] =>
    match queue.back.reverse with
    | item :: rest => some (item, { front := rest })
    | [] => none

def size (queue : Queue α) : Nat := queue.front.length + queue.back.length

def isEmpty (queue : Queue α) : Bool := queue.front.isEmpty && queue.back.isEmpty

@[simp] theorem toList_empty : (empty : Queue α).toList = [] := rfl

@[simp] theorem toList_ofList (items : List α) : (ofList items).toList = items := by
  simp [ofList, toList]

@[simp] theorem toList_push (queue : Queue α) (item : α) :
    (queue.push item).toList = queue.toList ++ [item] := by
  simp [push, toList]

@[simp] theorem length_toList (queue : Queue α) : queue.toList.length = queue.size := by
  simp [toList, size]

/-- Taking an element is taking the head of the view. -/
theorem pop?_eq (queue : Queue α) :
    queue.pop?.map (fun popped => (popped.1, popped.2.toList)) =
      queue.toList.head?.map fun item => (item, queue.toList.tail) := by
  obtain ⟨front, back⟩ := queue
  cases front with
  | cons item rest => simp [pop?, toList]
  | nil => cases reversed : back.reverse <;> simp [pop?, toList, reversed]

theorem toList_of_pop?_eq_none {queue : Queue α} (dry : queue.pop? = none) : queue.toList = [] := by
  have view := queue.pop?_eq
  cases listed : queue.toList with
  | nil => rfl
  | cons item rest => simp [dry, listed] at view

theorem toList_of_pop? {queue rest : Queue α} {item : α} (popped : queue.pop? = some (item, rest)) :
    queue.toList = item :: rest.toList := by
  have view := queue.pop?_eq
  cases listed : queue.toList with
  | nil => simp [popped, listed] at view
  | cons head tail =>
    simp only [popped, listed, Option.map_some, List.head?_cons, List.tail_cons, Option.some.injEq,
      Prod.mk.injEq] at view
    rw [view.1, view.2]

end Queue

end GrammarReach
