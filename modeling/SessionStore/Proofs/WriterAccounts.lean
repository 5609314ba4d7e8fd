import SessionStore.Proofs.WritingSteps

/-! What a writer leaves in its sink and how it counts, up to the first write
that the sink refuses. -/
namespace SessionStore

namespace Entry

def framesWithin (maxBytes : Option Nat) (entries : List Entry) : List Frame :=
  entries.filterMap (frameWithin? maxBytes)

def leftOut (maxBytes : Option Nat) (entries : List Entry) : List Entry :=
  entries.filter fun entry => (entry.frameWithin? maxBytes).isNone

end Entry

open Entry

namespace EntryWriter

def writeEach (w : EntryWriter) : List Entry → EntryWriter × Option Error
  | [] => (w, none)
  | entry :: rest =>
    match w.write entry with
    | (w, none) => w.writeEach rest
    | (w, some e) => (w, some e)

/-- The writer after entries of which none was refused. -/
def after (w : EntryWriter) (entries : List Entry) : EntryWriter :=
  { w with
    sink := w.sink.append ((framesWithin w.maxBytes entries).flatMap Frame.encode)
    written := w.written + (framesWithin w.maxBytes entries).length
    skipped := w.skipped + (Entry.leftOut w.maxBytes entries).length }

variable {w w' : EntryWriter} {entry : Entry} {rest : List Entry}

@[simp] theorem after_nil (w : EntryWriter) : w.after [] = w := by
  simp [after, framesWithin, Entry.leftOut, Sink.append]

theorem after_cons_leftOut (h : entry.frameWithin? w.maxBytes = none) :
    w.after (entry :: rest) = w.skip.after rest := by
  have hframes : framesWithin w.maxBytes (entry :: rest) = framesWithin w.maxBytes rest :=
    List.filterMap_cons_none h
  have hleftOut : Entry.leftOut w.maxBytes (entry :: rest) =
      entry :: Entry.leftOut w.maxBytes rest :=
    List.filter_cons_of_pos (by rw [h]; rfl)
  unfold after
  rw [hframes, hleftOut, List.length_cons, Nat.add_comm _ 1, ← Nat.add_assoc]
  rfl

theorem after_cons_added {f : Frame} (h : entry.frameWithin? w.maxBytes = some f) :
    w.after (entry :: rest) = (w.add f).after rest := by
  have hframes : framesWithin w.maxBytes (entry :: rest) = f :: framesWithin w.maxBytes rest :=
    List.filterMap_cons_some h
  have hleftOut : Entry.leftOut w.maxBytes (entry :: rest) = Entry.leftOut w.maxBytes rest :=
    List.filter_cons_of_neg (by rw [h]; exact Bool.false_ne_true)
  unfold after Sink.append
  rw [hframes, hleftOut, List.flatMap_cons, List.length_cons, Nat.add_comm _ 1, ← Nat.add_assoc,
    ← List.append_assoc]
  rfl

/-- What writing entries can come to: none is refused, or one is, and the writer is
as it was after those in front of it, but for what the sink got of its frame. -/
inductive Run (w : EntryWriter) (entries : List Entry) : EntryWriter × Option Error → Prop
  | finished (hr : framesWithin w.maxBytes entries = [] ∨ (w.after entries).sink.hasRoom 0 = true) :
    Run w entries (w.after entries, none)
  | refused {front back : List Entry} {entry : Entry} {f : Frame} {left : Bytes}
    (hs : entries = front ++ entry :: back) (h : entry.frameWithin? w.maxBytes = some f)
    (hr : (w.after front).sink.hasRoom f.encode.length = false)
    (hl : left = [] ∨ left = Frame.envelope f.kind f.timestamp f.payload.length) :
    Run w entries ({ w.after front with sink := (w.after front).sink.append left },
      some (.system .writeEntry))

theorem Run.cons (hm : w'.maxBytes = w.maxBytes)
    (ha : ∀ entries, w.after (entry :: entries) = w'.after entries)
    (hr : framesWithin w.maxBytes rest = [] →
      framesWithin w.maxBytes (entry :: rest) = [] ∨ (w'.after rest).sink.hasRoom 0 = true)
    {result : EntryWriter × Option Error} (h : Run w' rest result) :
    Run w (entry :: rest) result := by
  cases h with
  | finished hroom =>
    rw [hm] at hroom
    rw [← ha]
    refine .finished ?_
    rw [ha]
    exact hroom.elim hr .inr
  | @refused front back _ _ _ hs hf hroom hl =>
    rw [hm] at hf
    rw [← ha] at hroom ⊢
    have hs : entry :: rest = (entry :: front) ++ _ := congrArg (entry :: ·) hs
    exact .refused hs hf hroom hl

theorem writeEach_run (w : EntryWriter) (entries : List Entry) :
    Run w entries (w.writeEach entries) := by
  induction entries generalizing w with
  | nil =>
    have hrun : Run w [] (w.after [], none) := .finished (.inl rfl)
    rwa [after_nil] at hrun
  | cons entry rest ih =>
    have hstep := w.write_step entry
    unfold writeEach
    generalize w.write entry = result at hstep ⊢
    cases hstep with
    | leftOut h =>
      have hm : w.skip.maxBytes = w.maxBytes := rfl
      dsimp only
      refine (ih w.skip).cons hm (fun _ => after_cons_leftOut h) fun hnone => .inl ?_
      exact (List.filterMap_cons_none h).trans hnone
    | @added f h hr =>
      have hm : (w.add f).maxBytes = w.maxBytes := rfl
      dsimp only
      refine (ih (w.add f)).cons hm (fun _ => after_cons_added h) fun hnone => .inr ?_
      simp only [after, add, hnone, List.flatMap_nil, Sink.hasRoom_append, List.length_nil,
        Nat.add_zero, hr]
    | refused h hr hl =>
      have hs : entry :: rest = [] ++ entry :: rest := rfl
      have hrun := Run.refused hs h (by rwa [after_nil]) hl
      rwa [after_nil] at hrun

/-- A writer keeps account of its sink. As long as nothing fails, the sink has the frames
of the entries with a frame within the limit, in order and whole, and the writer has
counted these and those that it left out. What fails is the first write for which there
is no room: it ends the writing with a system error, it is not counted, and the sink has
the frames of the entries before it and at most the three integers of its own frame. -/
theorem writeEach_accounts (maxBytes limit : Option Nat) (before : Bytes) (entries : List Entry) :
    let bytes (entries : List Entry) :=
      before ++ (framesWithin maxBytes entries).flatMap Frame.encode
    match writeEach { sink := ⟨before, limit⟩, maxBytes } entries with
    | (w, none) =>
      w.sink = ⟨bytes entries, limit⟩ ∧ w.written = (framesWithin maxBytes entries).length ∧
        w.skipped = (Entry.leftOut maxBytes entries).length ∧
        (framesWithin maxBytes entries = [] ∨ ∀ room ∈ limit, (bytes entries).length ≤ room)
    | (w, some e) =>
      e = .system .writeEntry ∧ ∃ done failing rest f left, entries = done ++ failing :: rest ∧
        failing.frameWithin? maxBytes = some f ∧
        (∃ room ∈ limit, room < (bytes done ++ f.encode).length) ∧
        (left = [] ∨ left = Frame.envelope f.kind f.timestamp f.payload.length) ∧
        w.sink = ⟨bytes done ++ left, limit⟩ ∧ w.written = (framesWithin maxBytes done).length ∧
        w.skipped = (Entry.leftOut maxBytes done).length := by
  intro bytes
  have hrun := writeEach_run { sink := ⟨before, limit⟩, maxBytes } entries
  generalize writeEach { sink := ⟨before, limit⟩, maxBytes } entries = result at hrun ⊢
  cases hrun with
  | finished hr =>
    refine ⟨rfl, Nat.zero_add _, Nat.zero_add _, hr.imp_right fun hroom room hl => ?_⟩
    exact of_decide_eq_true ((Option.all_eq_true _ _).mp hroom room hl)
  | @refused done rest failing f left hs h hr hl =>
    refine ⟨rfl, done, failing, rest, f, left, hs, h, ?_, hl, rfl, Nat.zero_add _, Nat.zero_add _⟩
    obtain ⟨room, hroom, hlt⟩ := (Option.all_eq_false _ _).mp hr
    refine ⟨room, hroom, ?_⟩
    rw [List.length_append]
    exact Nat.not_le.mp (of_decide_eq_false hlt)

end EntryWriter

end SessionStore
