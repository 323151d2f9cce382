import SqlDialect.Document.Source
import SqlDialect.Proofs.Document.Step
import SqlDialect.Proofs.Text.Utf8

/-!
# Streams line by line

A conversion from a stream writes what becomes of a line before it reads the next one, and stops at
the first fault.

* `Converter.stream` : the conversion in these steps; `Converter.transcribe_eq_stream` : it comes to
  the same as converting the document first and writing it then.
* `Sink.deliver_of_le`, `Sink.deliver_of_lt` : what a sink of limited room takes.
* `Converter.transcribe_limited` : a sink of limited room gets the whole converted document if it has
  room for it, and otherwise a start of it and no more.
-/

namespace SqlDialect

/-! ### Sinks -/

namespace Sink

@[simp] theorem deliver_none (texts : List (List Char)) : deliver none texts = (texts, true) := by
  cases texts <;> rfl

@[simp] theorem deliver_nil (room : Option Nat) : deliver room [] = ([], true) := by
  cases room <;> rfl

theorem deliver_cons_of_le {room : Nat} {text : List Char} (h : Text.octets text ≤ room)
    (rest : List (List Char)) :
    deliver (some room) (text :: rest) =
      (text :: (deliver (some (room - Text.octets text)) rest).1,
        (deliver (some (room - Text.octets text)) rest).2) := by
  rw [deliver, if_pos h]

theorem deliver_cons_of_lt {room : Nat} {text : List Char} (h : room < Text.octets text)
    (rest : List (List Char)) : deliver (some room) (text :: rest) = ([], false) := by
  rw [deliver, if_neg (Nat.not_le.2 h)]

/-- A sink with enough room takes everything. -/
theorem deliver_of_le {room : Nat} {texts : List (List Char)}
    (h : Text.octets texts.flatten ≤ room) : deliver (some room) texts = (texts, true) := by
  induction texts generalizing room with
  | nil => rfl
  | cons text rest ih =>
    rw [List.flatten_cons, Text.octets_append] at h
    rw [deliver_cons_of_le (by omega), ih (by omega)]

/-- A sink with too little room takes the texts up to the first that does not fit. -/
theorem deliver_of_lt {room : Nat} {texts : List (List Char)}
    (h : room < Text.octets texts.flatten) :
    (deliver (some room) texts).2 = false ∧ (deliver (some room) texts).1 <+: texts ∧
      Text.octets (deliver (some room) texts).1.flatten ≤ room := by
  induction texts generalizing room with
  | nil => exact absurd h (Nat.not_lt_zero _)
  | cons text rest ih =>
    rw [List.flatten_cons, Text.octets_append] at h
    by_cases hfits : Text.octets text ≤ room
    · obtain ⟨hincomplete, hprefix, hroom⟩ := @ih (room - Text.octets text) (by omega)
      rw [deliver_cons_of_le hfits]
      refine ⟨hincomplete, List.cons_prefix_cons.2 ⟨rfl, hprefix⟩, ?_⟩
      rw [List.flatten_cons, Text.octets_append]
      omega
    · rw [deliver_cons_of_lt (Nat.not_le.1 hfits)]
      exact ⟨rfl, List.nil_prefix, Nat.zero_le _⟩

end Sink

/-! ### Reading and writing line by line -/

/-- A sink that is being written to. -/
structure Intake where
  /-- What it has taken. -/
  written : List Char
  /-- The number of octets that it has room left for, if that is limited. -/
  room : Option Nat

namespace Intake

/-- Writes some texts, and tells whether all have been taken. -/
def take (intake : Intake) (texts : List (List Char)) : Intake × Bool :=
  let (written, complete) := Sink.deliver intake.room texts
  (⟨intake.written ++ written.flatten, intake.room.map (· - Text.octets written.flatten)⟩, complete)

theorem take_nil (intake : Intake) : intake.take [] = (intake, true) := by
  obtain ⟨written, room⟩ := intake
  cases room <;> simp [take, Text.octets]

/-- Writing stops at the first text that is not taken. -/
theorem take_append (intake : Intake) (texts more : List (List Char)) :
    intake.take (texts ++ more) =
      if (intake.take texts).2 then (intake.take texts).1.take more else intake.take texts := by
  obtain ⟨written, room⟩ := intake
  cases room with
  | none => simp [take]
  | some room =>
    induction texts generalizing written room with
    | nil => rw [List.nil_append, take_nil]; rfl
    | cons text rest ih =>
      by_cases hfits : Text.octets text ≤ room
      · have hstep : ∀ others, (⟨written, some room⟩ : Intake).take (text :: others) =
            (⟨written ++ text, some (room - Text.octets text)⟩ : Intake).take others := by
          intro others
          simp [take, Sink.deliver_cons_of_le hfits, Text.octets_append, Nat.sub_sub]
        rw [List.cons_append, hstep, hstep, ih]
      · simp [take, Sink.deliver_cons_of_lt (Nat.not_le.1 hfits)]

end Intake

/-- The run without the texts that have been written. -/
def Run.cleared (run : Run) : Run := { run with texts := [] }

namespace Converter

variable (c : Converter)

/-- Reads lines one by one, and writes what becomes of each before the next one is read.  The
first fault ends it. -/
def streamLines (label : String) (run : Run) (intake : Intake) :
    List (List UInt8) → Intake × Except Failure Run
  | [] => (intake, .ok run)
  | octets :: rest =>
    match Text.ofUtf8? octets with
    | none => (intake, .error (.fileRead label "stream did not contain valid UTF-8"))
    | some line =>
      let next := c.step run line
      match intake.take (terminated next.texts.reverse) with
      | (intake, true) => streamLines label next.cleared intake rest
      | (intake, false) => (intake, .error (.fileWrite label "disk full"))

/-- The conversion of a stream to a sink line by line: behind the lines comes what the end of the
document adds, and then the sink is flushed. -/
def stream (name : Option String) (octets : List UInt8) (sink : Sink) : Transcript :=
  let label := name.getD "<input>"
  match c.streamLines label (.start name) ⟨[], sink.room⟩ (Text.lines 0x0A 0x0D octets) with
  | (intake, .error failure) => ⟨intake.written, .error failure⟩
  | (intake, .ok run) =>
    let last := c.finish run
    match intake.take (terminated last.texts.reverse) with
    | (intake, false) => ⟨intake.written, .error (.fileWrite label "disk full")⟩
    | (intake, true) =>
      ⟨intake.written,
        if sink.flushFails then .error (.fileWrite label "flush failed") else .ok last.report⟩

variable {c}

theorem step_cleared (run : Run) (line : List Char) :
    c.step run line =
      { c.step run.cleared line with texts := (c.step run.cleared line).texts ++ run.texts } := by
  simp only [step_eq, Run.cleared, List.append_nil]

theorem finish_cleared (run : Run) :
    c.finish run =
      { c.finish run.cleared with texts := (c.finish run.cleared).texts ++ run.texts } := by
  cases hmode : run.context.mode with
  | normal =>
    have hcleared : run.cleared.context.mode = .normal := hmode
    rw [finish_of_normal hmode, finish_of_normal hcleared]
    rfl
  | suppressing region =>
    have hcleared : run.cleared.context.mode = .suppressing region := hmode
    rw [finish_of_suppressing hmode, finish_of_suppressing hcleared]
    simp only [Run.cleared, List.append_nil]

theorem terminated_append (texts more : List (List Char)) :
    terminated (texts ++ more) = terminated texts ++ terminated more :=
  List.flatMap_append

theorem foldl_step_cleared (run : Run) (lines : List (List Char)) :
    lines.foldl c.step run =
      { lines.foldl c.step run.cleared with
        texts := (lines.foldl c.step run.cleared).texts ++ run.texts } := by
  induction lines using List.reverseRecOn with
  | nil => rfl
  | append_singleton lines line ih =>
    rw [List.foldl_concat, List.foldl_concat, ih, step_cleared,
      step_cleared (lines.foldl c.step run.cleared)]
    simp only [Run.cleared, List.append_assoc]

/-- Lines one by one come to the same as all of them at once. -/
theorem streamLines_eq (label : String) (run : Run) (intake : Intake) (lines : List (List UInt8)) :
    c.streamLines label run.cleared intake lines =
      let last := (Text.decodeLines lines).1.foldl c.step run.cleared
      let result := intake.take (terminated last.texts.reverse)
      (result.1,
        if result.2 then
          if (Text.decodeLines lines).2 then .ok last.cleared
          else .error (.fileRead label "stream did not contain valid UTF-8")
        else .error (.fileWrite label "disk full")) := by
  induction lines generalizing run intake with
  | nil =>
    have hnone : terminated run.cleared.texts.reverse = [] := rfl
    simp only [streamLines, Text.decodeLines, List.foldl_nil, hnone, Intake.take_nil, if_true]
    rfl
  | cons octets rest ih =>
    cases hline : Text.ofUtf8? octets with
    | none =>
      have hnone : terminated run.cleared.texts.reverse = [] := rfl
      simp only [streamLines, Text.decodeLines, hline, List.foldl_nil, hnone, Intake.take_nil,
        if_true, Bool.false_eq_true, if_false]
    | some line =>
      have hdecode : Text.decodeLines (octets :: rest) =
          (line :: (Text.decodeLines rest).1, (Text.decodeLines rest).2) := by
        rw [Text.decodeLines, hline]
      -- what was written is taken off the run, which goes on as if it had not been there
      have hlast := foldl_step_cleared (c := c) (c.step run.cleared line) (Text.decodeLines rest).1
      simp only [streamLines, hline, hdecode, List.foldl_cons, hlast, List.reverse_append,
        terminated_append, Intake.take_append]
      rcases htake : intake.take (terminated (c.step run.cleared line).texts.reverse) with
        ⟨next, complete⟩
      cases complete with
      | false => rfl
      | true => exact ih (c.step run.cleared line) next

/-- The conversion of a stream in terms of what the sink takes. -/
theorem transcribe_eq_take (name : Option String) (octets : List UInt8) (sink : Sink) :
    c.transcribe name octets sink =
      let decoded := Text.decodeLines (Text.lines 0x0A 0x0D octets)
      let run := c.runLines name decoded.1
      let last := if decoded.2 then c.finish run else run
      let result := (⟨[], sink.room⟩ : Intake).take (terminated last.texts.reverse)
      ⟨result.1.written,
        if !result.2 then .error (.fileWrite (name.getD "<input>") "disk full")
        else if !decoded.2 then
          .error (.fileRead (name.getD "<input>") "stream did not contain valid UTF-8")
        else if sink.flushFails then .error (.fileWrite (name.getD "<input>") "flush failed")
        else .ok last.report⟩ := rfl

/-- Writing the lines one by one as they are read comes to the same as converting the document first
and writing it then. -/
theorem transcribe_eq_stream (name : Option String) (octets : List UInt8) (sink : Sink) :
    c.transcribe name octets sink = c.stream name octets sink := by
  have hstream : c.streamLines (name.getD "<input>") (.start name) ⟨[], sink.room⟩
      (Text.lines 0x0A 0x0D octets) = _ :=
    streamLines_eq (c := c) (name.getD "<input>") (.start name) ⟨[], sink.room⟩ _
  rw [transcribe_eq_take, stream]
  dsimp only
  rw [hstream]
  obtain ⟨lines, decoded⟩ := Text.decodeLines (Text.lines 0x0A 0x0D octets)
  have hrun : lines.foldl c.step (Run.start name).cleared = c.runLines name lines := rfl
  dsimp only
  rw [hrun]
  generalize c.runLines name lines = run
  cases decoded with
  | false =>
    simp only [Bool.false_eq_true, if_false, Bool.not_false, if_true]
    obtain ⟨intake, complete⟩ :=
      (⟨[], sink.room⟩ : Intake).take (terminated run.texts.reverse)
    cases complete <;> rfl
  | true =>
    simp only [if_true, Bool.not_true, Bool.false_eq_true, if_false, Bool.not_eq_true']
    rw [finish_cleared run, List.reverse_append, terminated_append, Intake.take_append]
    obtain ⟨intake, complete⟩ :=
      (⟨[], sink.room⟩ : Intake).take (terminated run.texts.reverse)
    cases complete with
    | false => rfl
    | true =>
      simp only [if_true]
      obtain ⟨next, complete⟩ := intake.take (terminated (c.finish run.cleared).texts.reverse)
      cases complete <;> rfl

/-! ### Sinks of limited room -/

/-- A stream that is a text, to a sink without a limit. -/
theorem transcribe_toUtf8 (name : Option String) (text : List Char) (flushFails : Bool) :
    c.transcribe name (Text.toUtf8 text) ⟨none, flushFails⟩ =
      ⟨(c.convert (.ofText name text)).text,
        if flushFails then .error (.fileWrite (name.getD "<input>") "flush failed")
        else .ok (c.convert (.ofText name text)).report⟩ := by
  rw [transcribe_eq_take, Text.lines_toUtf8, Text.decodeLines_map_toUtf8]
  simp only [Intake.take, Sink.deliver_none, List.nil_append, flatten_terminated, if_true,
    Bool.not_true, Bool.false_eq_true, if_false]
  rfl

/-- A sink with a failing flush gets what it would get otherwise. -/
theorem transcribe_flushFails (name : Option String) (octets : List UInt8) (room : Option Nat) :
    let flushed := c.transcribe name octets ⟨room, false⟩
    c.transcribe name octets ⟨room, true⟩ =
      ⟨flushed.written, flushed.result.bind fun _ =>
        .error (.fileWrite (name.getD "<input>") "flush failed")⟩ := by
  rw [transcribe_eq_take, transcribe_eq_take]
  refine congrArg (Transcript.mk _) ?_
  dsimp only
  generalize Intake.take _ _ = taken
  generalize Text.decodeLines _ = read
  obtain ⟨-, complete⟩ := taken
  obtain ⟨lines, decoded⟩ := read
  cases complete <;> cases decoded <;> rfl

variable {name : Option String} {octets : List UInt8} {room : Nat}

/-- A conversion to a sink with enough room is the one to a sink without a limit. -/
theorem transcribe_of_le
    (h : Text.octets (c.transcribe name octets ⟨none, false⟩).written ≤ room) :
    c.transcribe name octets ⟨some room, false⟩ = c.transcribe name octets ⟨none, false⟩ := by
  simp only [transcribe_eq_take, Intake.take, Sink.deliver_none, List.nil_append] at h ⊢
  rw [Sink.deliver_of_le h]

/-- A conversion to a sink with too little room fails, and has written a start of the whole. -/
theorem transcribe_of_lt
    (h : room < Text.octets (c.transcribe name octets ⟨none, false⟩).written) :
    let limited := c.transcribe name octets ⟨some room, false⟩
    limited.result = .error (.fileWrite (name.getD "<input>") "disk full") ∧
      limited.written <+: (c.transcribe name octets ⟨none, false⟩).written ∧
      Text.octets limited.written ≤ room := by
  simp only [transcribe_eq_take, Intake.take, Sink.deliver_none, List.nil_append] at h ⊢
  obtain ⟨hincomplete, ⟨more, hprefix⟩, hroom⟩ := Sink.deliver_of_lt h
  refine ⟨?_, ⟨more.flatten, ?_⟩, hroom⟩
  · rw [hincomplete, Bool.not_false, if_pos rfl]
  · rw [← List.flatten_append, hprefix]

/-- **Sinks of limited room.**  For every stream, every name, every choice of rules and of remarks,
and every number of octets: the conversion to a sink with room for that many succeeds if and only if
the one to a sink without a limit does and writes no more; then the two are the same.  If that one
writes more, the conversion fails because the sink is full, and a start of the whole output has been
written, as much as there is room for.  A flush that fails makes a failure of a success, and changes
nothing of what has been written.  A stream that is a text is converted, without a limit, as the
document.  The lines are written one by one as they are read. -/
theorem transcribe_limited (c : Converter) (name : Option String) (octets : List UInt8)
    (room : Nat) :
    let label := name.getD "<input>"
    let full := c.transcribe name octets ⟨none, false⟩
    let limited := c.transcribe name octets ⟨some room, false⟩
    let size := (Text.toUtf8 full.written).length
    ((∃ report, limited.result = .ok report) ↔
      (∃ report, full.result = .ok report) ∧ size ≤ room) ∧
    (size ≤ room → limited = full) ∧
    (room < size →
      limited.result = .error (.fileWrite label "disk full") ∧
      Text.toUtf8 limited.written <+: Text.toUtf8 full.written ∧
      (Text.toUtf8 limited.written).length ≤ room) ∧
    (∀ room, let flushed := c.transcribe name octets ⟨room, false⟩
      c.transcribe name octets ⟨room, true⟩ =
        ⟨flushed.written, flushed.result.bind fun _ => .error (.fileWrite label "flush failed")⟩) ∧
    (∀ text, octets = Text.toUtf8 text →
      full = ⟨(c.convert (.ofText name text)).text, .ok (c.convert (.ofText name text)).report⟩) ∧
    ∀ sink, c.transcribe name octets sink = c.stream name octets sink := by
  intro label full limited size
  have hsize : size = Text.octets full.written := Text.length_toUtf8 _
  have henough : size ≤ room → limited = full := fun h => transcribe_of_le (hsize ▸ h)
  have hfull : room < size → limited.result = .error (.fileWrite label "disk full") ∧
      limited.written <+: full.written ∧ Text.octets limited.written ≤ room :=
    fun h => transcribe_of_lt (hsize ▸ h)
  refine ⟨?_, henough, fun h => ?_, transcribe_flushFails name octets, ?_,
    transcribe_eq_stream name octets⟩
  · rcases Nat.lt_or_ge room size with h | h
    · simp [(hfull h).1, Nat.not_le.2 h]
    · simp [henough h, h]
  · obtain ⟨hresult, ⟨more, hmore⟩, hroom⟩ := hfull h
    rw [← hmore, Text.toUtf8_append, Text.length_toUtf8]
    exact ⟨hresult, List.prefix_append _ _, hroom⟩
  · rintro text rfl
    exact transcribe_toUtf8 name text false

end Converter

end SqlDialect
