import Pypepper.ProgPar
/-!
# Linear — concurrent calls that take effect one at a time

Each thread makes one call on a shared object, in several actions.  The calls are linearized when each has one of its own
actions as its point, so between its start and its end, and the calls made one after the other in the order of the points
answer as the threads were answered.  A thread that calls twice is two threads, the second starting after the first ended.
-/
namespace Conc

variable {ι A : Type} {R : A → Type} {S Op Res T : Type}

/-- The answers of calls made one after the other. -/
def replies (apply : Op → T → Res × T) : T → List Op → List Res
  | _, []      => []
  | t, o :: os => (apply o t).1 :: replies apply (apply o t).2 os

/-- The object after the calls. -/
def settle (apply : Op → T → Res × T) (t : T) (os : List Op) : T := os.foldl (fun t o => (apply o t).2) t

section
variable (apply : Op → T → Res × T)

theorem replies_append : ∀ (t : T) (os : List Op) (o : Op),
    replies apply t (os ++ [o]) = replies apply t os ++ [(apply o (settle apply t os)).1]
  | _, [], _ => rfl
  | t, o' :: os, o => by
    rw [List.cons_append, replies, replies_append _ os o]
    rfl

@[simp] theorem length_replies : ∀ (t : T) (os : List Op), (replies apply t os).length = os.length
  | _, [] => rfl
  | t, o :: os => by rw [replies, List.length_cons, length_replies _ os, List.length_cons]

theorem settle_append (t : T) (os : List Op) (o : Op) :
    settle apply t (os ++ [o]) = (apply o (settle apply t os)).2 := by
  simp [settle]

/-- The calls of a list of points. -/
def calls (op : ι → Op) (points : List (Ev ι A R S)) : List Op := points.map (fun e => op e.thread)

/-- The call of thread `i` has its point, and is answered `b` there. -/
def Answered (op : ι → Op) (t₀ : T) (points : List (Ev ι A R S)) (i : ι) (b : Res) : Prop :=
  (i, b) ∈ (points.map Ev.thread).zip (replies apply t₀ (calls op points))

/-- **A linearization of a log**: points in the order of the log, each thread's at most once, and each returned call
answered as it returned. -/
structure Linearizes (op : ι → Op) (t₀ : T) (log points : List (Ev ι A R S)) (returned : ι → Option Res) : Prop where
  sublist  : points.Sublist log
  nodup    : (points.map Ev.thread).Nodup
  answered : ∀ i b, returned i = some b → Answered apply op t₀ points i b

variable {apply} {op : ι → Op} {t₀ : T} {points : List (Ev ι A R S)} {e : Ev ι A R S}

theorem calls_append : calls op (points ++ [e]) = calls op points ++ [op e.thread] := by
  simp [calls]

theorem zip_append : ((points ++ [e]).map Ev.thread).zip (replies apply t₀ (calls op (points ++ [e]))) =
    (points.map Ev.thread).zip (replies apply t₀ (calls op points)) ++
      [(e.thread, (apply (op e.thread) (settle apply t₀ (calls op points))).1)] := by
  rw [calls_append, replies_append, List.map_append, List.zip_append (by simp [calls])]
  rfl

/-- Later points change no answer. -/
theorem Answered.append {i : ι} {b : Res} (h : Answered apply op t₀ points i b) :
    Answered apply op t₀ (points ++ [e]) i b := by
  rw [Answered, zip_append]
  exact List.mem_append_left _ h

/-- A call is answered at its point. -/
theorem Answered.new {b : Res} (h : (apply (op e.thread) (settle apply t₀ (calls op points))).1 = b) :
    Answered apply op t₀ (points ++ [e]) e.thread b := by
  rw [Answered, zip_append, h]
  exact List.mem_append_right _ (List.mem_singleton_self _)

end
end Conc
