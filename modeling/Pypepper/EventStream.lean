import Mathlib.Data.List.Basic
/-!
# EventStream — reading a text of events

The rules by which a client reads `text/event-stream`: lines end at LF, CR or CRLF, a line that starts with a colon is a
comment, any other is a field's name and value, and a blank line dispatches the event read so far when it has data.

A text of lines that each end in LF is read line by line (`splitLines_append_lf`), and a line without a break of its own is
read as it was written (`splitLines_line`).
-/
namespace EventStream

def isBreak (c : Char) : Bool := c = '\n' || c = '\r'

/-- The finished lines; `cr` when the last character was a CR, whose LF ends the same line. -/
def splitLines : Bool → List Char → List Char → List (List Char)
  | _,  _,    []     => []
  | cr, line, c :: r =>
    if c = '\n' then
      if cr then splitLines false line r else line :: splitLines false [] r
    else if c = '\r' then line :: splitLines true [] r
    else splitLines false (line ++ [c]) r

inductive Field where
  | event (value : List Char)
  | data  (value : List Char)
  | id    (value : List Char)
  | retry (value : List Char)

/-- The field of a name; an id with a NUL, a retry that is no number and any other name are ignored. -/
def Field.read (name value : List Char) : Option Field :=
  if name = ['e', 'v', 'e', 'n', 't'] then some (.event value)
  else if name = ['d', 'a', 't', 'a'] then some (.data value)
  else if name = ['i', 'd'] then if '\x00' ∈ value then none else some (.id value)
  else if name = ['r', 'e', 't', 'r', 'y'] then
    if value ≠ [] ∧ value.all Char.isDigit then some (.retry value) else none
  else none

inductive Item where
  | blank
  | field (f : Field)
  | ignored

def Item.field? : Item → Option Field
  | .field f => some f
  | _        => none

/-- What follows the colon, less one space. -/
def fieldValue (line : List Char) : List Char :=
  if (line.dropWhile (· ≠ ':')).tail.head? = some ' ' then (line.dropWhile (· ≠ ':')).tail.tail
  else (line.dropWhile (· ≠ ':')).tail

def readLine (line : List Char) : Item :=
  if line = [] then .blank
  else if line.head? = some ':' then .ignored
  else match Field.read (line.takeWhile (· ≠ ':')) (fieldValue line) with
    | some f => .field f
    | none   => .ignored

structure Message where
  event       : String
  data        : String
  lastEventId : String

/-- The buffers; the last event id outlives the event. -/
structure Buffers where
  data        : List Char := []
  event       : List Char := []
  lastEventId : List Char := []

namespace Buffers

variable (b : Buffers)

def take : Field → Buffers
  | .event v => { b with event := v }
  | .data v  => { b with data := b.data ++ v ++ ['\n'] }
  | .id v    => { b with lastEventId := v }
  | .retry _ => b

/-- The dispatched event: the data without its last LF. -/
def message : Message :=
  { event := if b.event = [] then "message" else String.ofList b.event
    data := String.ofList b.data.dropLast
    lastEventId := String.ofList b.lastEventId }

end Buffers

def dispatch : Buffers → List Item → List Message
  | _, []              => []
  | b, .blank :: is    =>
    if b.data = [] then dispatch { b with event := [] } is
    else b.message :: dispatch { b with data := [], event := [] } is
  | b, .field f :: is  => dispatch (b.take f) is
  | b, .ignored :: is  => dispatch b is

def items (text : List Char) : List Item := (splitLines false [] text).map readLine

/-- The fields a client takes from a text. -/
def fields (text : List Char) : List Field := (items text).filterMap Item.field?

/-- The events a client dispatches. -/
def messages (text : List Char) : List Message := dispatch {} (items text)

/-! ## Lines -/

/-- What is read up to a LF does not depend on what follows it. -/
theorem splitLines_append_lf (l rest : List Char) : ∀ (cr : Bool) (line : List Char),
    splitLines cr line (l ++ '\n' :: rest) = splitLines cr line (l ++ ['\n']) ++
      splitLines false (if cr ∧ l = [] then line else []) rest := by
  induction l with
  | nil =>
    intro cr line
    cases cr <;> simp [splitLines]
  | cons c l ih =>
    intro cr line
    by_cases hn : c = '\n'
    · subst hn
      cases cr <;> simp [splitLines, ih]
    · by_cases hr : c = '\r'
      · subst hr
        by_cases hl : l = []
        · simp [splitLines, hl]
        · simp [splitLines, ih, hl]
      · simp [splitLines, hn, hr, ih]

/-- The lines of a text that ends in LF. -/
def pieces (l : List Char) : List (List Char) := splitLines false [] (l ++ ['\n'])

theorem splitLines_pieces (l rest : List Char) :
    splitLines false [] (l ++ '\n' :: rest) = pieces l ++ splitLines false [] rest := by
  rw [splitLines_append_lf, pieces]
  simp

def Unbroken (l : List Char) : Prop := ∀ c ∈ l, isBreak c = false

instance (l : List Char) : Decidable (Unbroken l) := List.decidableBAll (fun c => isBreak c = false) l

theorem Unbroken.append {l k : List Char} (hl : Unbroken l) (hk : Unbroken k) : Unbroken (l ++ k) := by
  intro c hc
  rcases List.mem_append.1 hc with hc | hc
  · exact hl c hc
  · exact hk c hc

/-- **A line without a break is read as it was written.** -/
theorem pieces_of_unbroken {l : List Char} (h : Unbroken l) : pieces l = [l] := by
  have line : ∀ (l : List Char), Unbroken l → ∀ (pre : List Char), splitLines false pre (l ++ ['\n']) = [pre ++ l] := by
    intro l
    induction l with
    | nil =>
      intro _ pre
      simp [splitLines]
    | cons c l ih =>
      intro h pre
      have hc : isBreak c = false := h c List.mem_cons_self
      simp only [isBreak, Bool.or_eq_false_iff, decide_eq_false_iff_not] at hc
      have hl := ih (fun d hd => h d (List.mem_cons_of_mem _ hd)) (pre ++ [c])
      rw [List.cons_append, splitLines, if_neg hc.1, if_neg hc.2, hl, List.append_assoc]
      rfl
  rw [pieces, line l h []]
  rfl

/-- **No line that is read has a break in it.** -/
theorem unbroken_of_mem_splitLines : ∀ (text : List Char) (cr : Bool) (line : List Char), Unbroken line →
    ∀ l ∈ splitLines cr line text, Unbroken l := by
  intro text
  induction text with
  | nil =>
    intro _ _ _ l hl
    cases hl
  | cons c r ih =>
    intro cr line hline l hl
    have hnil : Unbroken [] := fun _ h => by cases h
    rw [splitLines] at hl
    by_cases hn : c = '\n'
    · rw [if_pos hn] at hl
      cases cr
      · rcases List.mem_cons.1 hl with rfl | hl
        · exact hline
        · exact ih _ _ hnil l hl
      · exact ih _ _ hline l hl
    · rw [if_neg hn] at hl
      by_cases hr : c = '\r'
      · rw [if_pos hr] at hl
        rcases List.mem_cons.1 hl with rfl | hl
        · exact hline
        · exact ih _ _ hnil l hl
      · rw [if_neg hr] at hl
        have hc : Unbroken [c] := fun d hd => by
          rw [List.mem_singleton.1 hd, isBreak, decide_eq_false hn, decide_eq_false hr]
          rfl
        exact ih _ _ (hline.append hc) l hl

/-! ## Fields -/

/-- What the value of a field that is read can be. -/
def Field.Clean : Field → Prop
  | .event v => Unbroken v
  | .data v  => Unbroken v
  | .id v    => Unbroken v ∧ '\x00' ∉ v
  | .retry v => v ≠ [] ∧ v.all Char.isDigit = true

theorem mem_fieldValue {line : List Char} {c : Char} (h : c ∈ fieldValue line) : c ∈ line := by
  have hdrop : ∀ d ∈ (line.dropWhile (· ≠ ':')).tail, d ∈ line := fun d hd =>
    (List.dropWhile_sublist _).subset (List.mem_of_mem_tail hd)
  unfold fieldValue at h
  split at h
  · exact hdrop c (List.mem_of_mem_tail h)
  · exact hdrop c h

theorem Field.clean_read {name value : List Char} {f : Field} (hv : Unbroken value) (h : Field.read name value = some f) :
    f.Clean := by
  unfold Field.read at h
  repeat' split at h
  all_goals cases h
  · exact hv
  · exact hv
  · rename_i hz
    exact ⟨hv, hz⟩
  · rename_i hd
    exact hd

theorem clean_of_mem_fields {text : List Char} {f : Field} (h : f ∈ fields text) : f.Clean := by
  obtain ⟨i, hi, hf⟩ := List.mem_filterMap.1 h
  obtain ⟨l, hl, rfl⟩ := List.mem_map.1 hi
  have hl := unbroken_of_mem_splitLines text false [] (fun _ h => by cases h) l hl
  unfold readLine at hf
  split at hf
  · cases hf
  · split at hf
    · cases hf
    · cases hr : Field.read (l.takeWhile (· ≠ ':')) (fieldValue l) with
      | none =>
        rw [hr] at hf
        cases hf
      | some g =>
        rw [hr] at hf
        cases hf
        exact Field.clean_read (fun c hc => hl c (mem_fieldValue hc)) hr

/-- A line that a field was written to, with one space after the colon. -/
theorem readLine_field {name : List Char} (hne : name ≠ []) (hc : ':' ∉ name) (value : List Char) :
    readLine (name ++ ':' :: ' ' :: value) = match Field.read name value with
      | some f => .field f
      | none   => .ignored := by
  have hname : ∀ c ∈ name, decide (c ≠ ':') = true := fun c h => decide_eq_true fun he => hc (he ▸ h)
  have htake : (name ++ ':' :: ' ' :: value).takeWhile (· ≠ ':') = name := by
    rw [List.takeWhile_append_of_pos hname]
    simp
  have hdrop : (name ++ ':' :: ' ' :: value).dropWhile (· ≠ ':') = ':' :: ' ' :: value := by
    rw [List.dropWhile_append_of_pos hname]
    simp
  have hhead : ¬ (name ++ ':' :: ' ' :: value).head? = some ':' := by
    rw [List.head?_append_of_ne_nil _ hne]
    exact fun h => hc (List.mem_of_mem_head? h)
  have hnil : ¬ name ++ ':' :: ' ' :: value = [] := by simp
  rw [readLine, if_neg hnil, if_neg hhead, htake, fieldValue, hdrop]
  rfl

/-- Lines joined by LF and ended by one; no line at all is a blank one. -/
theorem splitLines_intercalate (rest : List Char) : ∀ ls : List (List Char),
    splitLines false [] (['\n'].intercalate ls ++ '\n' :: rest) =
      (if ls = [] then [[]] else ls.flatMap pieces) ++ splitLines false [] rest
  | [] => rfl
  | [l] => by
    rw [List.intercalate_singleton, splitLines_pieces]
    simp
  | l :: k :: ls => by
    have htext : ['\n'].intercalate (l :: k :: ls) ++ '\n' :: rest =
        l ++ '\n' :: (['\n'].intercalate (k :: ls) ++ '\n' :: rest) := by
      rw [List.intercalate_cons_cons]
      simp
    rw [htext, splitLines_pieces, splitLines_intercalate rest (k :: ls)]
    simp

/-- The one item of a line that a field without a break was written to. -/
theorem pieces_field {name value : List Char} {f : Field} (hne : name ≠ []) (hc : ':' ∉ name) (hn : Unbroken name)
    (hv : Unbroken value) (hf : Field.read name value = some f) :
    (pieces (name ++ ':' :: ' ' :: value)).map readLine = [.field f] := by
  have hsep : Unbroken [':', ' '] := by decide
  have hline : name ++ ':' :: ' ' :: value = name ++ [':', ' '] ++ value := by simp
  rw [pieces_of_unbroken (by rw [hline]; exact (hn.append hsep).append hv), List.map_singleton,
    readLine_field hne hc, hf]

/-! ## Events -/

/-- Items without a field leave empty buffers as they are. -/
theorem dispatch_quiet (last : List Char) (rest : List Item) : ∀ is : List Item, (∀ i ∈ is, i.field? = none) →
    dispatch { lastEventId := last } (is ++ rest) = dispatch { lastEventId := last } rest
  | [], _ => rfl
  | i :: is, h => by
    have his := dispatch_quiet last rest is (fun j hj => h j (List.mem_cons_of_mem _ hj))
    cases i with
    | blank => exact his
    | ignored => exact his
    | field f => exact absurd (h (.field f) List.mem_cons_self) (by simp [Item.field?])

theorem dispatch_fields (rest : List Item) : ∀ (fs : List Field) (b : Buffers),
    dispatch b (fs.map .field ++ rest) = dispatch (fs.foldl Buffers.take b) rest
  | [], _ => rfl
  | _ :: fs, _ => dispatch_fields rest fs _

end EventStream
