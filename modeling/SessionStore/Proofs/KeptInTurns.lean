import SessionStore.Proofs.KeptLists

/-! However many sessions take turns on a file, its histories and its jumps keep
the newest facts. -/
namespace SessionStore

open Merge Recency

/-- The histories and jumps of a session are in order, each line filed under its own kind. -/
structure Session.ListsInOrder (session : Session) : Prop where
  filed : ∀ type, ∀ item ∈ session.history.get type, item.value.type = type
  history : ∀ type, OldestFirst (session.history.get type)
  jumps : OldestFirst session.jumps

def Session.OfferedBy (settings : Settings) (file : Stream) (turns : List (Occasion × Session))
    (entry : Entry) : Prop :=
  entry ∈ file.entries ∨ ∃ turn ∈ turns, turn.2.Offers settings turn.1.now entry

namespace Session

variable {settings : Settings} {session : Session}

theorem reverse_newestFirst {α : Type} {items : List (Timed α)} (h : OldestFirst items) :
    items.reverse.Pairwise fun a b => b.timestamp ≤ a.timestamp :=
  List.pairwise_reverse.mpr h

theorem seenIn_offers_history (settings : Settings) (now : Timestamp) (hs : session.ListsInOrder)
    (type : HistoryType) (k : Bytes) (t : Timestamp) :
    SeenIn (Content.historyText? type) (session.Offers settings now) k t ↔
      (k, t) ∈ facts HistoryItem.text (session.history.get type).reverse := by
  rw [mem_facts]
  constructor
  · rintro ⟨entry, ho, hk, rfl⟩
    cases ho with
    | @history other item hm =>
      have hfiled := hs.filed other item hm
      by_cases ht : item.value.type = type
      · have htext : some item.value.text = some k := (if_pos ht).symm.trans hk
        subst ht
        rw [← hfiled] at hm
        exact ⟨item, List.mem_reverse.mpr hm, by rw [Option.some.inj htext]⟩
      · cases (if_neg ht).symm.trans hk
    | _ => cases hk
  · rintro ⟨item, hm, he⟩
    obtain ⟨rfl, rfl⟩ := Prod.mk.inj he
    have hm := List.mem_reverse.mp hm
    exact ⟨_, .history hm, if_pos (hs.filed type item hm), rfl⟩

theorem seenIn_offers_jumps (settings : Settings) (now : Timestamp)
    (k : List Component × UInt64 × UInt64) (t : Timestamp) :
    SeenIn Content.jumpPlace? (session.Offers settings now) k t ↔
      (k, t) ∈ facts Mark.place session.jumps.reverse := by
  rw [mem_facts]
  constructor
  · rintro ⟨entry, ho, hk, rfl⟩
    cases ho with
    | @jump mark hm => exact ⟨mark, List.mem_reverse.mpr hm, by rw [Option.some.inj hk]⟩
    | _ => cases hk
  · rintro ⟨mark, hm, he⟩
    obtain ⟨rfl, rfl⟩ := Prod.mk.inj he
    exact ⟨_, .jump (List.mem_reverse.mp hm), rfl, rfl⟩

theorem filed_merged_of_filed
    (hs : ∀ type, ∀ item ∈ session.history.get type, item.value.type = type) (occasion : Occasion)
    (file : Stream) : (session.merged settings occasion file).Filed := by
  have hseed : ((start settings).seed settings occasion.now session).Filed := by
    rw [seed_eq]
    exact filed_start settings
  have hfile : (file.entries.foldl (Merge.absorb settings)
      ((start settings).seed settings occasion.now session)).Filed :=
    hseed.foldl_absorb file.entries
  intro type
  have hsession : ∀ item ∈ (session.history.get type).reverse, item.value.type = type :=
    fun item hm => hs type item (List.mem_reverse.mp hm)
  unfold merged seedHistory
  rw [PerHistory.get_ofFn]
  exact HistoryRing.forall_fill (hfile type) hsession

theorem filed_merged (hs : session.ListsInOrder) (occasion : Occasion) (file : Stream) :
    (session.merged settings occasion file).Filed :=
  filed_merged_of_filed hs.filed occasion file

/-- The file's lines come first and the session's last. -/
theorem newestKept_history_merged (hs : session.ListsInOrder) (occasion : Occasion) (file : Stream)
    (type : HistoryType) :
    NewestKept (settings.history.get type)
      (SeenIn (Content.historyText? type) (OfferedBy settings file [(occasion, session)]))
      (facts HistoryItem.text ((session.merged settings occasion file).history.get
        type).items) := by
  have hseed : ((start settings).seed settings occasion.now session).KeepsHistory settings type
      fun _ _ => False := by
    have hstart := keepsHistory_start settings type
    rw [seed_eq]
    exact ⟨hstart.capacity, hstart.oldestFirst, hstart.newest⟩
  have hfile := hseed.foldl_absorb file.entries
  have hnewest := hfile.newest
  rw [← hfile.capacity] at hnewest
  have hfill := HistoryRing.newestKept_fill hnewest hfile.oldestFirst
    (reverse_newestFirst (hs.history type)) true
  rw [hfile.capacity] at hfill
  unfold merged seedHistory
  rw [PerHistory.get_ofFn]
  apply hfill.congr
  intro k t
  rw [← seenIn_offers_history settings occasion.now hs]
  simp only [SeenIn, OfferedBy, List.mem_singleton, exists_eq_left, or_and_right,
    exists_or, false_or]

/-- The session's jumps come first and the file's last. -/
theorem newestKept_jumps_merged (hr : settings.removable = []) (hs : session.ListsInOrder)
    (occasion : Occasion) (file : Stream) :
    NewestKept settings.jumps
      (SeenIn Content.jumpPlace? (OfferedBy settings file [(occasion, session)]))
      (facts Mark.place (session.merged settings occasion file).jumps.items) := by
  have hkept (mark : Timed Mark) : (!settings.isRemovable mark.value.file) = true := by
    rw [Settings.isRemovable, hr]
    rfl
  have hseed : ((start settings).seed settings occasion.now session).KeepsJumps settings
      fun k t => False ∨ (k, t) ∈ facts Mark.place session.jumps.reverse := by
    have hstart : NewestKept (start settings).jumps.capacity (fun _ _ => False)
        (facts Mark.place (start settings).jumps.items) := .nil _
    rw [seed_eq]
    exact ⟨Bounded.capacity_fill .., Bounded.newestKept_fill Mark.sameLocation_iff hstart
      (reverse_newestFirst hs.jumps) fun mark _ => hkept mark⟩
  apply ((hseed.foldl_absorb hr file.entries).newest).congr
  intro k t
  rw [false_or, ← seenIn_offers_jumps settings occasion.now]
  simp only [SeenIn, OfferedBy, List.mem_singleton, exists_eq_left, or_and_right, exists_or]
  exact or_comm

/-- What a turn leaves of a list is the newest of what the file and the session
had, whatever the file. -/
def KeepsNewest {κ : Type} (settings : Settings) (capacity : Nat) (identity? : Content → Option κ)
    (turn : Occasion × Session) : Prop :=
  ∀ file : Stream, file.Sound →
    NewestKept capacity (SeenIn identity? (OfferedBy settings file [turn]))
      (heldIn identity? (turn.2.saved settings turn.1 file).entries)

/-- What each turn keeps of the turns before it makes up what is kept of all. -/
theorem newestKept_saveInTurn {κ : Type} {capacity : Nat} {identity? : Content → Option κ}
    (hk : settings.maxKbyte = 0) {file : Stream} (hf : file.Sound)
    {turns : List (Occasion × Session)} (hn : turns ≠ [])
    (hs : ∀ turn ∈ turns, turn.2.Survives settings)
    (ht : ∀ turn ∈ turns, KeepsNewest settings capacity identity? turn) :
    ∃ final, saveInTurn settings file turns = .ok final ∧
      NewestKept capacity (SeenIn identity? (OfferedBy settings file turns))
        (heldIn identity? final.entries) := by
  cases turns with
  | nil => exact absurd rfl hn
  | cons first rest =>
    obtain ⟨hfirst, hrest⟩ := List.forall_mem_cons.mp hs
    obtain ⟨htfirst, htrest⟩ := List.forall_mem_cons.mp ht
    rw [saveInTurn_cons hk hf.isReadable]
    have hsaved := (entries_saved hfirst hf first.1).1
    refine saveInTurn_induction (P := fun before s => NewestKept capacity
      (SeenIn identity? (OfferedBy settings file before)) (heldIn identity? s.entries))
      hk hsaved [first] hrest (htfirst file hf) fun before turn s hm hsound hbefore => ?_
    have hturn : NewestKept capacity (fun k t => (k, t) ∈ heldIn identity? s.entries ∨
        SeenIn identity? (turn.2.Offers settings turn.1.now) k t)
        (heldIn identity? (turn.2.saved settings turn.1 s).entries) := by
      apply (htrest turn hm s hsound).congr
      intro k t
      simp [mem_heldIn, SeenIn, OfferedBy, or_and_right, exists_or]
    apply (hbefore.trans hturn).congr
    intro k t
    simp [SeenIn, OfferedBy, or_and_right, exists_or, or_assoc]

/-- Whatever has an identity by its kind is written and read back under this identity. -/
theorem heldIn_entries_saved {κ : Type} {identity? : Content → Option κ}
    (hs : session.Survives settings) {file : Stream} (hf : file.Sound) {occasion : Occasion}
    (hstored : ∀ content : Content, identity? content.stored = identity? content) {kind : Kind}
    (hkind : ∀ content : Content, identity? content ≠ none → content.kind = kind)
    (hr : kind ≠ .register) :
    heldIn identity? (session.saved settings occasion file).entries =
      heldIn identity? ((session.merged settings occasion file).entries settings occasion
        session) := by
  rw [(entries_saved hs hf occasion).2]
  apply heldIn_saved hstored
  intro entry he hi
  have hsound := sound_merged hs hf occasion entry he
  exact hsound.writes fun hk => hr ((hkind _ hi).symm.trans hk)

theorem keepsNewest_history {turn : Occasion × Session} (hs : turn.2.Survives settings)
    (ho : turn.2.ListsInOrder) (type : HistoryType) :
    KeepsNewest settings (settings.history.get type) (Content.historyText? type) turn := by
  intro file hf
  rw [heldIn_entries_saved hs hf (fun content => by cases content <;> rfl)
    Content.kind_of_historyText?
    (by decide), heldIn_history (filed_merged ho turn.1 file)
    (kind_unknown_merged turn.1 turn.2 file)]
  exact newestKept_history_merged ho turn.1 file type

theorem keepsNewest_jumps {turn : Occasion × Session} (hr : settings.removable = [])
    (hs : turn.2.Survives settings) (ho : turn.2.ListsInOrder) :
    KeepsNewest settings settings.jumps Content.jumpPlace? turn := by
  intro file hf
  rw [heldIn_entries_saved hs hf (fun content => by cases content <;> rfl)
    Content.kind_of_jumpPlace? (by decide), heldIn_jumps (kind_unknown_merged turn.1 turn.2 file)]
  exact newestKept_jumps_merged hr ho turn.1 file

/-- Whoever takes turns on a file, every list in it keeps the newest facts of all that
the file and the sessions ever had: it leaves nothing out but to make room for what is
at least as new. The payloads of the file are as long as a memory can hold. -/
theorem turns_keep_newest (hk : settings.maxKbyte = 0) (hr : settings.removable = [])
    {file : Stream} (hf : file.IsReadable) (hp : file.PayloadsBelow (2 ^ 56))
    {turns : List (Occasion × Session)} (hn : turns ≠ [])
    (hs : ∀ turn ∈ turns, turn.2.Survives settings) (ho : ∀ turn ∈ turns, turn.2.ListsInOrder) :
    ∃ final, saveInTurn settings file turns = .ok final ∧
      (∀ type, NewestKept (settings.history.get type)
        (SeenIn (Content.historyText? type) (OfferedBy settings file turns))
        (heldIn (Content.historyText? type) final.entries)) ∧
      NewestKept settings.jumps (SeenIn Content.jumpPlace? (OfferedBy settings file turns))
        (heldIn Content.jumpPlace? final.entries) := by
  have hsound := Stream.sound_of_isCountable hf hp.isCountable
  obtain ⟨final, hfinal, hjumps⟩ := newestKept_saveInTurn hk hsound hn hs fun turn hm =>
    keepsNewest_jumps hr (hs turn hm) (ho turn hm)
  refine ⟨final, hfinal, fun type => ?_, hjumps⟩
  obtain ⟨final', hfinal', hhistory⟩ := newestKept_saveInTurn hk hsound hn hs fun turn hm =>
    keepsNewest_history (hs turn hm) (ho turn hm) type
  cases Except.ok.inj (hfinal.symm.trans hfinal')
  exact hhistory

/-- A broken file has the line "a", and then two sessions bring it again and
"b"; there is room for one line. -/
theorem turns_keep_newest_line :
    let settings : Settings := { maxKbyte := 0, history := .uniform 1 }
    let file : Stream := ⟨[4, 3, 4, 0x92, 0, 0xA1, 0x61, 0], false⟩
    let session (time : Timestamp) (text : UInt8) : Session :=
      { history := (PerHistory.uniform []).set .command
          [⟨time, { type := .command, text := [text] }⟩] }
    let turns : List (Occasion × Session) := [(⟨9, 1⟩, session 6 0x62), (⟨9, 2⟩, session 5 0x61)]
    ∃ final, saveInTurn settings file turns = .ok final ∧
      (∀ type, NewestKept (settings.history.get type)
        (SeenIn (Content.historyText? type) (OfferedBy settings file turns))
        (heldIn (Content.historyText? type) final.entries)) ∧
      NewestKept settings.jumps (SeenIn Content.jumpPlace? (OfferedBy settings file turns))
        (heldIn Content.jumpPlace? final.entries) := by
  intro settings file session turns
  have hline (text : UInt8) : Content.Survives (.history { type := .command, text := [text] }) := by
    have hencode : Content.encode (.history { type := .command, text := [text] }) =
        .ok [0x92, 0, 0xA1, text] := rfl
    refine ⟨⟨by simp, fun _ => rfl, ⟨by simp, by simp⟩, fun h => by cases h⟩, fun payload hp => ?_⟩
    cases hencode.symm.trans hp
    simp
  have hsession (time : Timestamp) (text : UInt8) : (session time text).Survives settings := by
    intro now entry ho
    cases ho with
    | @history type item hm =>
      cases type with
      | command =>
        cases List.mem_singleton.mp hm
        exact hline text
      | _ => cases hm
    | buffers h | globalVariable h | replacement h | jump h | globalMark h | register h => cases h
    | @pattern substitute p h => cases substitute <;> cases h
    | localMark h | change h => cases h
  have horder (time : Timestamp) (text : UInt8) : (session time text).ListsInOrder := by
    refine ⟨fun type item hm => ?_, fun type => ?_, .nil⟩
    · cases type with
      | command => exact List.mem_singleton.mp hm ▸ rfl
      | _ => cases hm
    · cases type with
      | command => exact List.pairwise_singleton ..
      | _ => exact .nil
  have hread : file.read = ⟨[⟨4, 3, [0x92, 0, 0xA1, 0x61], 0⟩],
      some (.format 7 .reservedKind), 8⟩ := by
    have hframe : file.cursor.frame = .ok (⟨4, 3, [0x92, 0, 0xA1, 0x61], 0⟩, ⟨[0], 7, false⟩) := rfl
    have hdamage : Cursor.frame ⟨[0], 7, false⟩ = .error ⟨.format 7 .reservedKind, 8⟩ := rfl
    rw [Stream.read, Cursor.frames_of_ok hframe, Cursor.frames_of_error (by simp) hdamage]
  refine turns_keep_newest rfl rfl (fun attempt he => ?_) ?_ (by simp [turns]) ?_ ?_
  · rw [hread] at he
    cases he
  · rw [Stream.PayloadsBelow, hread]
    exact List.forall_mem_singleton.mpr (by simp)
  · exact List.forall_mem_cons.mpr ⟨hsession 6 0x62,
      List.forall_mem_singleton.mpr (hsession 5 0x61)⟩
  · exact List.forall_mem_cons.mpr ⟨horder .., List.forall_mem_singleton.mpr (horder ..)⟩

end Session

end SessionStore
