import Pypepper.EventStream
import Pypepper.JsonRoundTrip
import Pypepper.Sse
/-!
# SseText — the text of an event

`_serialize_sse_event` of `stream.py`, read back by the rules of `EventStream`.  The constructor of `ServerSentEvent`
passes the fields on unchanged, so the text is one of the event's own fields.

Only the data is written so that no line break of it reaches the text: a JSON text has none, and raw data is split into
lines first.  The event's type, its id and its comment are written as they are.
-/
namespace Pypepper
namespace Sse

open EventStream

/-! ## The serializer -/

/-- The characters at which `str.splitlines` ends a line. -/
def isLineBoundary (c : Char) : Bool :=
  isBreak c || [0x0b, 0x0c, 0x1c, 0x1d, 0x1e, 0x85, 0x2028, 0x2029].contains c.toNat

/-- `str.splitlines`: CRLF is one end, and the last line needs none. -/
def splitlinesFrom : Bool → List Char → List Char → List (List Char)
  | _,  line, []     => if line = [] then [] else [line]
  | cr, line, c :: r =>
    if c = '\n' ∧ cr then splitlinesFrom false line r
    else if isLineBoundary c then line :: splitlinesFrom (decide (c = '\r')) [] r
    else splitlinesFrom false (line ++ [c]) r

def splitlines (s : String) : List String := (splitlinesFrom false [] s.toList).map String.ofList

namespace SSEEvent

variable (ev : SSEEvent)

/-- The values of the data lines: the lines of the raw data, or the JSON text of the data. -/
def dataTexts : List String :=
  match ev.rawData with
  | some raw => splitlines raw
  | none     => match ev.data with
    | .null => []
    | data  => [data.dumpsWith false]

/-- `lines`, in the serializer's order. -/
def lines : List String :=
  ((truthy ev.comment).map (":" ++ ·)).toList ++ ((truthy ev.event).map ("event: " ++ ·)).toList ++
    ((truthy ev.id).map ("id: " ++ ·)).toList ++ (ev.retry.map ("retry: " ++ toString ·)).toList ++
    ev.dataTexts.map ("data: " ++ ·)

end SSEEvent

def serializeSseEvent (ev : SSEEvent) : String := "\n".intercalate ev.lines ++ "\n\n"

/-- What a stream sends for a sequence of events. -/
def serializeAll (evs : List SSEEvent) : String := String.join (evs.map serializeSseEvent)

/-! ## What was written, and what should be read -/

/-- The fields of an event; its comment is none. -/
def SSEEvent.fields (ev : SSEEvent) : List Field :=
  ((truthy ev.event).map (fun e => .event e.toList)).toList ++ ((truthy ev.id).map (fun i => .id i.toList)).toList ++
    (ev.retry.map (fun n => .retry (toString n).toList)).toList ++ ev.dataTexts.map (fun t => .data t.toList)

/-- One message for each event with data, of its type, with its id (or the last one before it) and its data. -/
def expected : String → List SSEEvent → List (String × String × Option Py.Json)
  | _,    []        => []
  | last, ev :: evs =>
    let last' := (truthy ev.id).getD last
    match ev.data with
    | .null => expected last' evs
    | data  => ((truthy ev.event).getD "message", last', some data) :: expected last' evs

/-- **The framing is faithful**: a client dispatches what was sent, and takes the fields that were written. -/
def Faithful (evs : List SSEEvent) : Prop :=
  (messages (serializeAll evs).toList).map (fun m => (m.event, m.lastEventId, Py.Json.loads m.data)) = expected "" evs ∧
    EventStream.fields (serializeAll evs).toList = evs.flatMap SSEEvent.fields

/-- **No value breaks its line**: neither the type nor the id has a CR or LF, and the id no NUL; the retry is no negative
number; the lines that a comment runs over are all ignored. -/
structure Framed (ev : SSEEvent) : Prop where
  event   : ∀ e ∈ truthy ev.event, Unbroken e.toList
  id      : ∀ i ∈ truthy ev.id, Unbroken i.toList ∧ '\x00' ∉ i.toList
  retry   : ∀ n ∈ ev.retry, 0 ≤ n
  comment : ∀ c ∈ truthy ev.comment, ∀ l ∈ pieces (':' :: c.toList), (readLine l).field? = none

/-! ## The data lines -/

theorem unbroken_of_printable {cs : List Char} (h : Py.Json.Printable cs) : Unbroken cs := by
  intro c hc
  have h20 := h c hc
  have hn : ¬ c = '\n' := fun he => by subst he; exact absurd h20 (by decide)
  have hr : ¬ c = '\r' := fun he => by subst he; exact absurd h20 (by decide)
  rw [isBreak, decide_eq_false hn, decide_eq_false hr]
  rfl

theorem unbroken_splitlinesFrom : ∀ (r : List Char) (cr : Bool) (line : List Char), Unbroken line →
    ∀ l ∈ splitlinesFrom cr line r, Unbroken l := by
  intro r
  induction r with
  | nil =>
    intro cr line hline l hl
    rw [splitlinesFrom] at hl
    split at hl
    · cases hl
    · rw [List.mem_singleton.1 hl]
      exact hline
  | cons c r ih =>
    intro cr line hline l hl
    rw [splitlinesFrom] at hl
    split at hl
    · exact ih _ _ hline l hl
    · split at hl
      · rcases List.mem_cons.1 hl with rfl | hl
        · exact hline
        · exact ih _ _ (fun _ h => by cases h) l hl
      · rename_i hb
        have hc : isBreak c = false := by
          simp only [isLineBoundary, Bool.or_eq_true, not_or, Bool.not_eq_true] at hb
          exact hb.1
        exact ih _ _ (hline.append fun d hd => by rw [List.mem_singleton.1 hd, hc]) l hl

/-- **A data line has no break**, whatever the data. -/
theorem SSEEvent.unbroken_dataTexts (ev : SSEEvent) : ∀ t ∈ ev.dataTexts, Unbroken t.toList := by
  intro t ht
  unfold dataTexts at ht
  split at ht
  · obtain ⟨l, hl, rfl⟩ := List.mem_map.1 ht
    rw [String.toList_ofList]
    exact unbroken_splitlinesFrom _ false [] (fun _ h => by cases h) l hl
  · split at ht
    · cases ht
    · rw [List.mem_singleton.1 ht, Py.Json.dumpsWith, String.toList_ofList]
      exact unbroken_of_printable (Py.Json.printable_encode _)

/-! ## The items of a text -/

/-- The items of one line of the serializer. -/
def lineItems (l : String) : List Item := (pieces l.toList).map readLine

/-- The items of an event: those of its lines, and a blank one that dispatches it. -/
theorem items_serialize (ev : SSEEvent) (rest : List Char) : ∃ blanks, (∀ i ∈ blanks, i.field? = none) ∧
    items ((serializeSseEvent ev).toList ++ rest) = ev.lines.flatMap lineItems ++ .blank :: (blanks ++ items rest) := by
  have htext : (serializeSseEvent ev).toList ++ rest =
      ['\n'].intercalate (ev.lines.map String.toList) ++ '\n' :: '\n' :: rest := by
    simp [serializeSseEvent, String.toList_append, String.toList_intercalate]
  have hblank : splitLines false [] ('\n' :: rest) = [] :: splitLines false [] rest := rfl
  rw [htext, items, splitLines_intercalate, hblank]
  by_cases h : ev.lines = []
  · exact ⟨[.blank], by simp [Item.field?], by simp [h, items, readLine]⟩
  · refine ⟨[], by simp, ?_⟩
    have hflat : ((ev.lines.map String.toList).flatMap pieces).map readLine = ev.lines.flatMap lineItems := by
      simp only [List.flatMap_map, List.map_flatMap]
      rfl
    have hne : ¬ ev.lines.map String.toList = [] := by simpa using h
    rw [if_neg hne, List.map_append, hflat]
    rfl

/-- The fields a client takes from an event's comment, if any. -/
def commentFields (ev : SSEEvent) : List Field :=
  (((truthy ev.comment).map (":" ++ ·)).toList.flatMap lineItems).filterMap Item.field?

theorem commentFields_eq_nil {ev : SSEEvent} : commentFields ev = [] ↔
    ∀ c ∈ truthy ev.comment, ∀ l ∈ pieces (':' :: c.toList), (readLine l).field? = none := by
  rw [commentFields, List.filterMap_eq_nil_iff]
  constructor
  · intro h c hc l hl
    refine h _ (List.mem_flatMap.2 ⟨":" ++ c, ?_, List.mem_map.2 ⟨l, ?_, rfl⟩⟩)
    · rw [Option.mem_def.1 hc]
      exact List.mem_cons_self
    · rw [String.toList_append]
      exact hl
  · intro h i hi
    obtain ⟨l, hl, hi⟩ := List.mem_flatMap.1 hi
    obtain ⟨c, hc, rfl⟩ := Option.map_eq_some_iff.1 (Option.mem_toList.1 hl)
    obtain ⟨p, hp, rfl⟩ := List.mem_map.1 hi
    rw [String.toList_append] at hp
    exact h c hc p hp

theorem toString_nat (n : Nat) : (toString (n : Int)).toList = Nat.toDigits 10 n := by
  have h : toString (n : Int) = n.repr := rfl
  rw [h, Nat.toList_repr]

/-- The digits of a retry. -/
theorem retry_digits {n : Int} (h : 0 ≤ n) : (toString n).toList ≠ [] ∧ (toString n).toList.all Char.isDigit = true := by
  obtain ⟨k, rfl⟩ := Int.eq_ofNat_of_zero_le h
  rw [toString_nat]
  refine ⟨Nat.toDigits_ne_nil, List.all_eq_true.2 fun c hc => ?_⟩
  exact Nat.isDigit_of_mem_toDigits (by omega) (by omega) hc

theorem nonneg_of_digits {n : Int} (h : (toString n).toList.all Char.isDigit = true) : 0 ≤ n := by
  cases n with
  | ofNat n => exact Int.natCast_nonneg n
  | negSucc n =>
    have htext : toString (Int.negSucc n) = "-" ++ (n + 1).repr := rfl
    rw [htext, String.toList_append, List.all_append] at h
    cases h

/-- The lines of the fields alone. -/
def fieldLines (ev : SSEEvent) : List String :=
  ((truthy ev.event).map ("event: " ++ ·)).toList ++ ((truthy ev.id).map ("id: " ++ ·)).toList ++
    (ev.retry.map ("retry: " ++ toString ·)).toList ++ ev.dataTexts.map ("data: " ++ ·)

theorem lines_eq (ev : SSEEvent) : ev.lines = ((truthy ev.comment).map (":" ++ ·)).toList ++ fieldLines ev := by
  simp [SSEEvent.lines, fieldLines]

theorem unbroken_digits {cs : List Char} (h : cs.all Char.isDigit = true) : Unbroken cs :=
  unbroken_of_printable (Py.Json.printable_digits (List.all_eq_true.1 h))

theorem lineItems_field {name : List Char} {pre value : String} {f : Field} (hpre : pre.toList = name ++ [':', ' '])
    (hne : name ≠ []) (hc : ':' ∉ name) (hn : Unbroken name) (hv : Unbroken value.toList)
    (hf : Field.read name value.toList = some f) : lineItems (pre ++ value) = [.field f] := by
  rw [lineItems, String.toList_append, hpre, List.append_assoc]
  exact pieces_field hne hc hn hv hf

/-- **Data lines without a break are read one field each.** -/
theorem items_dataLines : ∀ ts : List String, (∀ t ∈ ts, Unbroken t.toList) →
    (ts.map ("data: " ++ ·)).flatMap lineItems = (ts.map fun t => Field.data t.toList).map .field
  | [], _ => rfl
  | t :: ts, h => by
    have ht := lineItems_field (f := .data t.toList) (show "data: ".toList = ['d', 'a', 't', 'a'] ++ [':', ' '] from rfl)
      (by decide) (by decide) (by decide) (h t List.mem_cons_self) rfl
    simp only [List.map_cons, List.flatMap_cons, ht, items_dataLines ts fun u hu => h u (List.mem_cons_of_mem _ hu),
      List.cons_append, List.nil_append]

/-- **The fields of a framed event are read as they were written.** -/
theorem items_fieldLines {ev : SSEEvent} (hevent : ∀ e ∈ truthy ev.event, Unbroken e.toList)
    (hid : ∀ i ∈ truthy ev.id, Unbroken i.toList ∧ '\x00' ∉ i.toList) (hretry : ∀ n ∈ ev.retry, 0 ≤ n) :
    (fieldLines ev).flatMap lineItems = ev.fields.map .field := by
  have option : ∀ {α : Type} (o : Option α) (g : α → String) (f : α → Field),
      (∀ a ∈ o, lineItems (g a) = [.field (f a)]) →
      (o.map g).toList.flatMap lineItems = ((o.map f).toList).map .field := by
    intro α o g f h
    cases o with
    | none => rfl
    | some a => simp [h a rfl]
  rw [fieldLines, SSEEvent.fields]
  simp only [List.flatMap_append, List.map_append]
  rw [option _ _ (fun e => .event e.toList), option _ _ (fun i => .id i.toList),
    option _ _ (fun n => .retry (toString n).toList), items_dataLines _ ev.unbroken_dataTexts]
  · intro n hn
    have hd := retry_digits (hretry n hn)
    have hpre : "retry: ".toList = ['r', 'e', 't', 'r', 'y'] ++ [':', ' '] := rfl
    exact lineItems_field hpre (by decide) (by decide) (by decide) (unbroken_digits hd.2) (if_pos hd)
  · intro i hi
    have hpre : "id: ".toList = ['i', 'd'] ++ [':', ' '] := rfl
    exact lineItems_field hpre (by decide) (by decide) (by decide) (hid i hi).1 (if_neg (hid i hi).2)
  · intro e he
    have hpre : "event: ".toList = ['e', 'v', 'e', 'n', 't'] ++ [':', ' '] := rfl
    exact lineItems_field hpre (by decide) (by decide) (by decide) (hevent e he) rfl

theorem toList_serializeAll (ev : SSEEvent) (evs : List SSEEvent) :
    (serializeAll (ev :: evs)).toList = (serializeSseEvent ev).toList ++ (serializeAll evs).toList := by
  simp [serializeAll, String.toList_join]

theorem filterMap_field (fs : List Field) : (fs.map Item.field).filterMap Item.field? = fs := by
  have hsome : Item.field? ∘ Item.field = some := rfl
  rw [List.filterMap_map, hsome, List.filterMap_some]

/-- The fields of a text are those of its events, one after the other. -/
theorem fields_serializeAll : ∀ evs : List SSEEvent, EventStream.fields (serializeAll evs).toList =
    evs.flatMap (fun ev => commentFields ev ++ ((fieldLines ev).flatMap lineItems).filterMap Item.field?)
  | [] => rfl
  | ev :: evs => by
    obtain ⟨blanks, hb, hitems⟩ := items_serialize ev (serializeAll evs).toList
    have hblanks : blanks.filterMap Item.field? = [] := List.filterMap_eq_nil_iff.2 hb
    have htail := fields_serializeAll evs
    rw [EventStream.fields] at htail ⊢
    rw [toList_serializeAll, hitems, lines_eq, List.flatMap_append, List.filterMap_append, List.filterMap_append,
      List.filterMap_cons_none rfl, List.filterMap_append, hblanks, htail, List.flatMap_cons, commentFields]
    rfl

/-! ## When the framing is faithful -/

/-- The text a client has read of an event's data when the blank line comes. -/
def dataBuffer : Py.Json → List Char
  | .null => []
  | data  => (data.dumpsWith false).toList ++ ['\n']

/-- What the buffers hold at an event's blank line. -/
theorem foldl_fields {ev : SSEEvent} (hraw : ev.rawData = none) (last : String) :
    ev.fields.foldl Buffers.take { lastEventId := last.toList } =
      { data := dataBuffer ev.data, event := ((truthy ev.event).getD "").toList,
        lastEventId := ((truthy ev.id).getD last).toList } := by
  have hdata : ∀ b : Buffers, b.data = [] → (ev.dataTexts.map (fun t => Field.data t.toList)).foldl Buffers.take b =
      { b with data := dataBuffer ev.data } := by
    intro b hb
    rw [SSEEvent.dataTexts, hraw]
    cases hd : ev.data
    case null => simp [dataBuffer, ← hb]
    all_goals simp [dataBuffer, Buffers.take, hb]
  rw [SSEEvent.fields, List.foldl_append, hdata]
  · cases truthy ev.event <;> cases truthy ev.id <;> cases ev.retry <;> rfl
  · cases truthy ev.event <;> cases truthy ev.id <;> cases ev.retry <;> rfl

theorem truthy_ne {o : Option String} {s : String} (h : truthy o = some s) : s.toList ≠ [] := by
  have hs := (Option.filter_eq_some_iff.1 h).2
  simp only [decide_eq_true_eq] at hs
  exact fun he => hs (String.toList_eq_nil_iff.1 he)

/-- The event's type as it is dispatched. -/
theorem message_event (o : Option String) :
    (if ((truthy o).getD "").toList = [] then "message" else String.ofList ((truthy o).getD "").toList) =
      (truthy o).getD "message" := by
  cases h : truthy o with
  | none => rfl
  | some e =>
    have hne : ¬ ((some e).getD "").toList = [] := truthy_ne h
    rw [if_neg hne, String.ofList_toList]
    rfl

/-- **Framed events are read as they were written**, whatever was sent before. -/
theorem dispatch_framed : ∀ (evs : List SSEEvent) (last : String), (∀ ev ∈ evs, ev.rawData = none ∧ ev.data.Wf) →
    (∀ ev ∈ evs, Framed ev) →
    (dispatch { lastEventId := last.toList } (items (serializeAll evs).toList)).map
      (fun m => (m.event, m.lastEventId, Py.Json.loads m.data)) = expected last evs
  | [], _, _, _ => rfl
  | ev :: evs, last, hok, h => by
    obtain ⟨blanks, hb, hitems⟩ := items_serialize ev (serializeAll evs).toList
    have hf := h ev List.mem_cons_self
    obtain ⟨hraw, hwf⟩ := hok ev List.mem_cons_self
    have ih := fun last => dispatch_framed evs last (fun e he => hok e (List.mem_cons_of_mem _ he))
      (fun e he => h e (List.mem_cons_of_mem _ he))
    have hquiet := List.filterMap_eq_nil_iff.1 (commentFields_eq_nil.2 hf.comment)
    rw [toList_serializeAll, hitems, lines_eq, List.flatMap_append, List.append_assoc, dispatch_quiet _ _ _ hquiet,
      items_fieldLines hf.event hf.id hf.retry, dispatch_fields, foldl_fields hraw]
    by_cases hnull : ev.data = .null
    · have hexpected : expected last (ev :: evs) = expected ((truthy ev.id).getD last) evs := by
        simp only [expected, hnull]
      rw [hnull, dataBuffer, dispatch, if_pos rfl, dispatch_quiet _ _ _ hb, ih, hexpected]
    · have hbuffer : dataBuffer ev.data = (ev.data.dumpsWith false).toList ++ ['\n'] := by
        unfold dataBuffer
        split
        · rename_i h
          exact absurd h hnull
        · rfl
      have hexpected : expected last (ev :: evs) = ((truthy ev.event).getD "message", (truthy ev.id).getD last,
          some ev.data) :: expected ((truthy ev.id).getD last) evs := by
        rw [expected]
        split
        · rename_i h
          exact absurd h hnull
        · rfl
      have hne : ¬ dataBuffer ev.data = [] := by simp [hbuffer]
      rw [dispatch, if_neg hne, dispatch_quiet _ _ _ hb, List.map_cons, ih, hexpected]
      rw [Buffers.message, message_event, hbuffer, List.dropLast_concat]
      simp only [String.ofList_toList, Py.Json.loads_dumpsWith _ hwf]

theorem fields_framed {ev : SSEEvent} (h : Framed ev) :
    commentFields ev ++ ((fieldLines ev).flatMap lineItems).filterMap Item.field? = ev.fields := by
  rw [commentFields_eq_nil.2 h.comment, items_fieldLines h.event h.id h.retry, filterMap_field]
  rfl

/-- A field that is read back as it was written has a value that does not break its line. -/
theorem clean_of_fields {evs : List SSEEvent}
    (h : EventStream.fields (serializeAll evs).toList = evs.flatMap SSEEvent.fields) {ev : SSEEvent} (hev : ev ∈ evs)
    {f : Field} (hf : f ∈ ev.fields) : f.Clean := by
  have hmem : f ∈ EventStream.fields (serializeAll evs).toList := by
    rw [h]
    exact List.mem_flatMap.2 ⟨ev, hev, hf⟩
  exact clean_of_mem_fields hmem

theorem length_flatMap_append {α β : Type} (f g : α → List β) : ∀ l : List α,
    (l.flatMap (fun a => f a ++ g a)).length = (l.flatMap f).length + (l.flatMap g).length
  | [] => rfl
  | a :: l => by
    have hl := length_flatMap_append f g l
    simp only [List.flatMap_cons, List.length_append] at hl ⊢
    omega

/-- **When the fields are read as they were written, every event is framed.** -/
theorem framed_of_fields {evs : List SSEEvent}
    (h : EventStream.fields (serializeAll evs).toList = evs.flatMap SSEEvent.fields) : ∀ ev ∈ evs, Framed ev := by
  have hevent : ∀ ev ∈ evs, ∀ e ∈ truthy ev.event, Unbroken e.toList := by
    intro ev hev e he
    have hmem : Field.event e.toList ∈ ev.fields := by simp [SSEEvent.fields, Option.mem_def.1 he]
    exact clean_of_fields h hev hmem
  have hid : ∀ ev ∈ evs, ∀ i ∈ truthy ev.id, Unbroken i.toList ∧ '\x00' ∉ i.toList := by
    intro ev hev i hi
    have hmem : Field.id i.toList ∈ ev.fields := by simp [SSEEvent.fields, Option.mem_def.1 hi]
    exact clean_of_fields h hev hmem
  have hretry : ∀ ev ∈ evs, ∀ n ∈ ev.retry, 0 ≤ n := by
    intro ev hev n hn
    have hmem : Field.retry (toString n).toList ∈ ev.fields := by simp [SSEEvent.fields, Option.mem_def.1 hn]
    exact nonneg_of_digits (clean_of_fields h hev hmem).2
  -- With the other fields read as written, what a comment adds is counted by the lengths.
  have hread : ∀ ev ∈ evs, ((fieldLines ev).flatMap lineItems).filterMap Item.field? = ev.fields := fun ev hev => by
    rw [items_fieldLines (hevent ev hev) (hid ev hev) (hretry ev hev), filterMap_field]
  have hlen : (evs.flatMap commentFields).length = 0 := by
    have hflat := congrArg List.length h
    rw [fields_serializeAll, length_flatMap_append, List.flatMap_congr hread] at hflat
    omega
  intro ev hev
  have hnil := List.flatMap_eq_nil_iff.1 (List.length_eq_zero_iff.1 hlen) ev hev
  exact ⟨hevent ev hev, hid ev hev, hretry ev hev, commentFields_eq_nil.1 hnil⟩

end Sse
end Pypepper
