import Pypepper.SseText
/-!
# SseRaw — raw data read back

The data lines of an event with raw data are the lines of `str.splitlines`, and a client joins them with LF.  What it
reads is the raw data with its line breaks made LF, when the raw data is not empty, does not end in a line break and has
no other line boundary of Python's (`reads_raw_iff`).
-/
namespace Pypepper
namespace Sse

open EventStream

/-! ## Line ends made LF -/

/-- Each CRLF and each lone CR made a LF. -/
def lfOnly : List Char → List Char
  | []                => []
  | '\r' :: '\n' :: l => '\n' :: lfOnly l
  | '\r' :: l         => '\n' :: lfOnly l
  | c :: l            => c :: lfOnly l

/-- Each character that `ends` a line made a LF, a LF after a CR being part of the same end. -/
def toLf (ends : Char → Bool) : Bool → List Char → List Char
  | _,  []     => []
  | cr, c :: l =>
    if c = '\n' ∧ cr then toLf ends false l
    else (if ends c then '\n' else c) :: toLf ends (decide (c = '\r')) l

theorem toLf_cons_false (ends : Char → Bool) (c : Char) (l : List Char) :
    toLf ends false (c :: l) = (if ends c then '\n' else c) :: toLf ends (decide (c = '\r')) l := by
  rw [toLf, if_neg]
  simp

/-- A flag without a LF to take changes nothing. -/
theorem toLf_cr (ends : Char → Bool) {l : List Char} (h : l.head? ≠ some '\n') :
    toLf ends true l = toLf ends false l := by
  cases l with
  | nil => rfl
  | cons c l =>
    have hc : ¬ c = '\n' := fun he => h (by rw [he]; rfl)
    rw [toLf_cons_false, toLf, if_neg fun hn => hc hn.1]

theorem toLf_isBreak (l : List Char) : toLf isBreak false l = lfOnly l := by
  fun_induction lfOnly l with
  | case1 => rfl
  | case2 l ih =>
    rw [toLf_cons_false, ← ih]
    rfl
  | case3 l hl ih =>
    have hhead : l.head? ≠ some '\n' := by
      intro hn
      obtain ⟨t, rfl⟩ := List.head?_eq_some_iff.1 hn
      exact hl t rfl
    have htail := toLf_cr isBreak hhead
    rw [toLf_cons_false, ← ih, ← htail]
    rfl
  | case4 c l _ hc ih =>
    have hr : ¬ c = '\r' := fun he => hc he
    rw [toLf_cons_false, ← ih, decide_eq_false hr]
    by_cases hn : c = '\n'
    · subst hn
      rfl
    · have hb : isBreak c = false := by simp [isBreak, hn, hr]
      rw [hb]
      rfl

theorem length_toLf (p q : Char → Bool) : ∀ (l : List Char) (cr : Bool), (toLf p cr l).length = (toLf q cr l).length
  | [], _ => rfl
  | c :: l, cr => by
    unfold toLf
    by_cases hc : c = '\n' ∧ cr = true
    · rw [if_pos hc, if_pos hc, length_toLf p q l]
    · rw [if_neg hc, if_neg hc, List.length_cons, List.length_cons, length_toLf p q l]

/-- Two kinds of line ends make the same text when the one has no end that the other has not. -/
theorem toLf_eq_iff {p q : Char → Bool} (hp : p '\n' = true) (hpq : ∀ c, p c = true → q c = true) :
    ∀ (l : List Char) (cr : Bool), toLf q cr l = toLf p cr l ↔ ∀ c ∈ l, q c = true → p c = true
  | [], _ => by simp [toLf]
  | c :: l, cr => by
    rw [List.forall_mem_cons]
    unfold toLf
    by_cases hc : c = '\n' ∧ cr = true
    · rw [if_pos hc, if_pos hc, toLf_eq_iff hp hpq l]
      refine ⟨fun h => ⟨fun _ => hc.1 ▸ hp, h⟩, And.right⟩
    · rw [if_neg hc, if_neg hc, List.cons.injEq, toLf_eq_iff hp hpq l]
      refine and_congr_left fun _ => ?_
      by_cases hpc : p c = true
      · simp [hpc, hpq c hpc]
      · have hn : ¬ c = '\n' := fun he => hpc (he ▸ hp)
        by_cases hqc : q c = true
        · simp [hpc, hqc, Ne.symm hn]
        · simp [hpc, hqc]

theorem lfOnly_eq_nil {l : List Char} : lfOnly l = [] ↔ l = [] := by
  fun_cases lfOnly l <;> simp

theorem getLast?_cons_of_ne_nil (c : Char) {l : List Char} (h : l ≠ []) : (c :: l).getLast? = l.getLast? := by
  rw [List.getLast?_cons, List.getLast?_eq_some_getLast h]
  rfl

/-- A text that ends in CR or LF is one that ends in LF afterwards. -/
theorem getLast?_lfOnly (l : List Char) :
    (lfOnly l).getLast? = some '\n' ↔ l.getLast? = some '\n' ∨ l.getLast? = some '\r' := by
  fun_induction lfOnly l with
  | case1 => simp
  | case2 l ih =>
    by_cases hl : l = []
    · simp [hl, lfOnly]
    · rw [getLast?_cons_of_ne_nil _ (lfOnly_eq_nil.not.2 hl), getLast?_cons_of_ne_nil _ (List.cons_ne_nil _ _),
        getLast?_cons_of_ne_nil _ hl, ih]
  | case3 l _ ih =>
    by_cases hl : l = []
    · simp [hl, lfOnly]
    · rw [getLast?_cons_of_ne_nil _ (lfOnly_eq_nil.not.2 hl), getLast?_cons_of_ne_nil _ hl, ih]
  | case4 c l _ hc ih =>
    have hr : ¬ c = '\r' := fun he => hc he
    by_cases hl : l = []
    · simp [hl, lfOnly, hr]
    · rw [getLast?_cons_of_ne_nil _ (lfOnly_eq_nil.not.2 hl), getLast?_cons_of_ne_nil _ hl, ih]

/-! ## The lines of the raw data -/

/-- A text whose last line is ended when it is not empty. -/
def closeLast (l : List Char) : List Char := if l = [] ∨ l.getLast? = some '\n' then l else l ++ ['\n']

theorem closeLast_append_lf (l k : List Char) : l ++ '\n' :: closeLast k = closeLast (l ++ '\n' :: k) := by
  unfold closeLast
  by_cases hk : k = []
  · simp [hk]
  · have hlast : (l ++ '\n' :: k).getLast? = k.getLast? := by
      rw [List.getLast?_append, List.getLast?_cons, List.getLast?_eq_some_getLast hk]
      rfl
    rw [hlast]
    by_cases hn : k.getLast? = some '\n'
    · simp [hn]
    · simp [hn, hk]

/-- **The lines of `str.splitlines`, each ended by LF, are the text with every line boundary made LF, its last line
ended.** -/
theorem flatMap_splitlinesFrom : ∀ (l : List Char) (cr : Bool) (line : List Char), '\n' ∉ line →
    (splitlinesFrom cr line l).flatMap (· ++ ['\n']) = closeLast (line ++ toLf isLineBoundary cr l)
  | [], cr, line, hline => by
    unfold splitlinesFrom toLf closeLast
    by_cases h : line = []
    · simp [h]
    · have hlast : ¬ line.getLast? = some '\n' := fun hl => hline (List.mem_of_getLast? hl)
      simp [h, hlast]
  | c :: l, cr, line, hline => by
    unfold splitlinesFrom toLf
    by_cases hc : c = '\n' ∧ cr = true
    · rw [if_pos hc, if_pos hc, flatMap_splitlinesFrom l false line hline]
    · rw [if_neg hc, if_neg hc]
      by_cases hb : isLineBoundary c = true
      · rw [if_pos hb, if_pos hb, List.flatMap_cons, flatMap_splitlinesFrom l _ [] (by simp), List.append_assoc,
          List.nil_append]
        exact closeLast_append_lf line _
      · have hn : ¬ c = '\n' := fun he => hb (by rw [he]; rfl)
        have hr : ¬ c = '\r' := fun he => hb (by rw [he]; rfl)
        rw [if_neg hb, if_neg hb, flatMap_splitlinesFrom l false (line ++ [c]), decide_eq_false hr]
        · rw [List.append_assoc]
          rfl
        · intro hmem
          rcases List.mem_append.1 hmem with hmem | hmem
          · exact hline hmem
          · exact hn (List.mem_singleton.1 hmem).symm

/-- Raw data that is not empty, does not end in a line break, and has no line boundary but CR and LF. -/
structure Plain (raw : String) : Prop where
  nonempty : raw ≠ ""
  last     : raw.toList.getLast? ≠ some '\n' ∧ raw.toList.getLast? ≠ some '\r'
  only     : ∀ c ∈ raw.toList, isLineBoundary c = true → isBreak c = true

/-- What a client has read of the data lines when the blank line comes. -/
def rawBuffer (raw : String) : List Char := (splitlinesFrom false [] raw.toList).flatMap (· ++ ['\n'])

/-- **The data lines make a message with the raw data exactly for plain raw data.** -/
theorem rawBuffer_iff (raw : String) :
    (rawBuffer raw ≠ [] ∧ (rawBuffer raw).dropLast = lfOnly raw.toList) ↔ Plain raw := by
  have hbuffer : rawBuffer raw = closeLast (toLf isLineBoundary false raw.toList) :=
    flatMap_splitlinesFrom raw.toList false [] (by simp)
  have hlen : (toLf isLineBoundary false raw.toList).length = (lfOnly raw.toList).length := by
    rw [← toLf_isBreak, length_toLf isLineBoundary isBreak]
  have hiff : toLf isLineBoundary false raw.toList = lfOnly raw.toList ↔
      ∀ c ∈ raw.toList, isLineBoundary c = true → isBreak c = true := by
    rw [← toLf_isBreak]
    exact toLf_eq_iff rfl (fun c hc => by simp [isLineBoundary, hc]) raw.toList false
  rw [hbuffer]
  generalize toLf isLineBoundary false raw.toList = text at hlen hiff
  unfold closeLast
  constructor
  · rintro ⟨hne, hdata⟩
    by_cases htext : text = [] ∨ text.getLast? = some '\n'
    · rw [if_pos htext] at hne hdata
      have hshort := congrArg List.length hdata
      have hpos := List.length_pos_iff.2 hne
      rw [List.length_dropLast] at hshort
      omega
    · rw [if_neg htext, List.dropLast_concat] at hdata
      rw [not_or, hdata, lfOnly_eq_nil, getLast?_lfOnly, not_or] at htext
      exact ⟨fun h => htext.1 (by rw [h]; rfl), htext.2, hiff.1 hdata⟩
  · intro h
    have hdata := hiff.2 h.only
    have htext : ¬ (text = [] ∨ text.getLast? = some '\n') := by
      rw [not_or, hdata, lfOnly_eq_nil, getLast?_lfOnly, not_or]
      exact ⟨fun hnil => h.nonempty (String.toList_eq_nil_iff.1 hnil), h.last⟩
    rw [if_neg htext, List.dropLast_concat]
    exact ⟨by simp, hdata⟩

/-! ## The message -/

/-- An item that neither dispatches nor adds data. -/
def Item.Quiet (i : Item) : Prop := i = .ignored ∨ ∃ f, i = .field f ∧ ∀ v, f ≠ .data v

/-- Quiet items leave the data as it is. -/
theorem dispatch_of_quiet (rest : List Item) : ∀ (is : List Item) (b : Buffers), (∀ i ∈ is, Item.Quiet i) →
    ∃ b', b'.data = b.data ∧ dispatch b (is ++ rest) = dispatch b' rest
  | [], b, _ => ⟨b, rfl, rfl⟩
  | i :: is, b, h => by
    have his : ∀ j ∈ is, Item.Quiet j := fun j hj => h j (List.mem_cons_of_mem _ hj)
    rcases h i List.mem_cons_self with rfl | ⟨f, rfl, hf⟩
    · exact dispatch_of_quiet rest is b his
    · obtain ⟨b', hdata, hrest⟩ := dispatch_of_quiet rest is (b.take f) his
      refine ⟨b', hdata.trans ?_, hrest⟩
      cases f with
      | data v => exact absurd rfl (hf v)
      | event v | id v | retry v => rfl

theorem not_data_of_read {name value : List Char} {f : Field} (hname : name ≠ ['d', 'a', 't', 'a'])
    (h : Field.read name value = some f) : ∀ v, f ≠ .data v := by
  intro v hf
  subst hf
  unfold Field.read at h
  rw [if_neg hname] at h
  repeat' split at h
  all_goals cases h

/-- A line without a break that was written to a field other than data. -/
theorem quiet_lineItems (name : List Char) {pre value : String} (hpre : pre.toList = name ++ [':', ' '])
    (hne : name ≠ []) (hc : ':' ∉ name) (hn : Unbroken name) (hname : name ≠ ['d', 'a', 't', 'a'])
    (hv : Unbroken value.toList) : ∀ i ∈ lineItems (pre ++ value), Item.Quiet i := by
  have hsep : Unbroken [':', ' '] := by decide
  have hline : (pre ++ value).toList = name ++ ':' :: ' ' :: value.toList := by
    rw [String.toList_append, hpre, List.append_assoc]
    rfl
  have hpieces : pieces (pre ++ value).toList = [name ++ ':' :: ' ' :: value.toList] := by
    rw [pieces_of_unbroken (by rw [String.toList_append, hpre]; exact (hn.append hsep).append hv), hline]
  intro i hi
  rw [lineItems, hpieces, List.map_singleton, List.mem_singleton, readLine_field hne hc] at hi
  cases hread : Field.read name value.toList with
  | none =>
    rw [hread] at hi
    exact .inl hi
  | some f =>
    rw [hread] at hi
    exact .inr ⟨f, hi, not_data_of_read hname hread⟩

theorem quiet_comment {comment : String} (h : Unbroken comment.toList) :
    ∀ i ∈ lineItems (":" ++ comment), Item.Quiet i := by
  have hcolon : Unbroken [':'] := by decide
  have hline : (":" ++ comment).toList = [':'] ++ comment.toList := String.toList_append
  intro i hi
  rw [lineItems, hline, pieces_of_unbroken (hcolon.append h), List.map_singleton, List.mem_singleton] at hi
  exact .inl hi

theorem unbroken_toString (n : Int) : Unbroken (toString n).toList := by
  have hnat : ∀ k : Nat, Unbroken k.repr.toList := by
    intro k
    rw [Nat.toList_repr]
    exact unbroken_digits (List.all_eq_true.2 fun c hc => Nat.isDigit_of_mem_toDigits (by omega) (by omega) hc)
  have hminus : Unbroken "-".toList := by decide
  show Unbroken n.repr.toList
  rw [Int.repr_eq_if]
  by_cases hn : 0 ≤ n
  · rw [if_pos hn]
    exact hnat _
  · rw [if_neg hn, String.toList_append]
    exact hminus.append (hnat _)

/-- Neither the type, nor the id, nor the comment has a CR or LF. -/
structure HeadUnbroken (ev : SSEEvent) : Prop where
  event   : ∀ s, ev.event = some s → Unbroken s.toList
  id      : ∀ s, ev.id = some s → Unbroken s.toList
  comment : ∀ s, ev.comment = some s → Unbroken s.toList

/-- The lines before the data's. -/
def headLines (ev : SSEEvent) : List String :=
  ((truthy ev.comment).map (":" ++ ·)).toList ++ ((truthy ev.event).map ("event: " ++ ·)).toList ++
    ((truthy ev.id).map ("id: " ++ ·)).toList ++ (ev.retry.map ("retry: " ++ toString ·)).toList

theorem quiet_headLines {ev : SSEEvent} (h : HeadUnbroken ev) : ∀ i ∈ (headLines ev).flatMap lineItems, Item.Quiet i := by
  have htruthy : ∀ {o : Option String} {s : String}, truthy o = some s → o = some s :=
    fun ho => (Option.filter_eq_some_iff.1 ho).1
  intro i hi
  obtain ⟨line, hline, hi⟩ := List.mem_flatMap.1 hi
  unfold headLines at hline
  simp only [List.mem_append, Option.mem_toList, Option.map_eq_some_iff] at hline
  rcases hline with ((⟨s, hs, rfl⟩ | ⟨s, hs, rfl⟩) | ⟨s, hs, rfl⟩) | ⟨n, hn, rfl⟩
  · exact quiet_comment (h.comment s (htruthy hs)) i hi
  · exact quiet_lineItems ['e', 'v', 'e', 'n', 't'] rfl (by decide) (by decide) (by decide) (by decide)
      (h.event s (htruthy hs)) i hi
  · exact quiet_lineItems ['i', 'd'] rfl (by decide) (by decide) (by decide) (by decide) (h.id s (htruthy hs)) i hi
  · exact quiet_lineItems ['r', 'e', 't', 'r', 'y'] rfl (by decide) (by decide) (by decide) (by decide)
      (unbroken_toString n) i hi

theorem foldl_data (ts : List String) (b : Buffers) :
    (ts.map fun t => Field.data t.toList).foldl Buffers.take b =
      { b with data := b.data ++ ts.flatMap fun t => t.toList ++ ['\n'] } := by
  induction ts generalizing b with
  | nil => simp
  | cons t ts ih => simp [ih, Buffers.take]

/-- The client dispatches one event, whose data is the raw data with its line breaks made LF. -/
def ReadsRaw (ev : SSEEvent) (raw : String) : Prop :=
  ∃ m, messages (serializeSseEvent ev).toList = [m] ∧ m.data = String.ofList (lfOnly raw.toList)

/-- What a client makes of an event's data lines. -/
theorem messages_raw {ev : SSEEvent} (h : HeadUnbroken ev) {raw : String} (hraw : ev.rawData = some raw) :
    ∃ b : Buffers, messages (serializeSseEvent ev).toList =
      if rawBuffer raw = [] then [] else [{ b with data := rawBuffer raw : Buffers }.message] := by
  obtain ⟨blanks, hblanks, hitems⟩ := items_serialize ev []
  have hlines : ev.lines = headLines ev ++ ev.dataTexts.map ("data: " ++ ·) := rfl
  have hdata : ev.dataTexts.flatMap (fun t => t.toList ++ ['\n']) = rawBuffer raw := by
    unfold SSEEvent.dataTexts rawBuffer splitlines
    rw [hraw]
    simp [List.flatMap_map]
  have hafter : ∀ last, dispatch { lastEventId := last } blanks = [] := fun last => by
    have hquiet := dispatch_quiet last [] blanks hblanks
    rwa [List.append_nil] at hquiet
  have hnil : items [] = [] := rfl
  rw [List.append_nil, hnil, List.append_nil, hlines, List.flatMap_append, List.append_assoc,
    items_dataLines _ ev.unbroken_dataTexts] at hitems
  obtain ⟨b, hempty, hhead⟩ := dispatch_of_quiet
    ((ev.dataTexts.map fun t => Field.data t.toList).map .field ++ .blank :: blanks) _ {} (quiet_headLines h)
  refine ⟨b, ?_⟩
  rw [messages, hitems, hhead, dispatch_fields, foldl_data, hdata, hempty, List.nil_append, dispatch]
  by_cases hbuffer : rawBuffer raw = []
  · rw [if_pos hbuffer, if_pos hbuffer, hbuffer, hafter]
  · rw [if_neg hbuffer, if_neg hbuffer, hafter]

/-- The client reads the data lines, all but their last LF. -/
theorem readsRaw_iff_rawBuffer {ev : SSEEvent} (h : HeadUnbroken ev) {raw : String} (hraw : ev.rawData = some raw) :
    ReadsRaw ev raw ↔ rawBuffer raw ≠ [] ∧ (rawBuffer raw).dropLast = lfOnly raw.toList := by
  obtain ⟨b, hb⟩ := messages_raw h hraw
  unfold ReadsRaw
  rw [hb]
  by_cases hnil : rawBuffer raw = []
  · rw [if_pos hnil]
    constructor
    · rintro ⟨m, hm, -⟩
      cases hm
    · rintro ⟨hne, -⟩
      exact absurd hnil hne
  · rw [if_neg hnil]
    constructor
    · rintro ⟨m, hm, hdata⟩
      obtain ⟨rfl, -⟩ := List.cons.inj hm
      exact ⟨hnil, String.ofList_inj.1 hdata⟩
    · rintro ⟨-, hdata⟩
      exact ⟨_, rfl, congrArg String.ofList hdata⟩

end Sse
end Pypepper
