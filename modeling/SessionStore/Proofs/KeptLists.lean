import SessionStore.Proofs.Merging
import SessionStore.Proofs.Turns

/-! Histories and jumps keep the newest of all that the sessions and the file had. -/
namespace SessionStore

open Merge (entriesOf)
open Recency

section Identities

variable {κ : Type} (identity? : Content → Option κ)

/-- Somebody was seen at some time among the entries. -/
def SeenIn (entries : Entry → Prop) (k : κ) (t : Timestamp) : Prop :=
  ∃ entry, entries entry ∧ identity? entry.content = some k ∧ entry.timestamp = t

/-- Who is held, and the time of each. -/
def heldIn (entries : List Entry) : List (κ × Timestamp) :=
  entries.filterMap fun entry => (identity? entry.content).map fun k => (k, entry.timestamp)

variable {identity?}

theorem mem_heldIn {entries : List Entry} {k : κ} {t : Timestamp} :
    (k, t) ∈ heldIn identity? entries ↔ SeenIn identity? (· ∈ entries) k t := by
  simp [heldIn, SeenIn]

theorem heldIn_flatMap {α : Type} (items : List α) (f : α → List Entry) :
    heldIn identity? (items.flatMap f) = items.flatMap fun item => heldIn identity? (f item) :=
  List.filterMap_flatMap

/-- Where only entries of one kind have an identity, the others may be left out. -/
theorem heldIn_filter_kind {kind : Kind}
    (h : ∀ content, identity? content ≠ none → content.kind = kind) (entries : List Entry) :
    heldIn identity? (entries.filter (·.kind = kind)) = heldIn identity? entries := by
  unfold heldIn
  rw [List.filterMap_filter]
  apply List.filterMap_congr
  intro entry _
  by_cases hk : entry.kind = kind
  · rw [decide_eq_true hk, if_pos rfl]
  · have hnone : identity? entry.content = none := by
      by_contra hne
      exact hk (h _ hne)
    rw [decide_eq_false hk, hnone]
    rfl

theorem heldIn_eq_nil {entries : List Entry}
    (h : ∀ entry ∈ entries, identity? entry.content = none) : heldIn identity? entries = [] :=
  List.filterMap_eq_nil_iff.mpr fun entry he => by rw [h entry he]; rfl

theorem heldIn_entriesOf {α : Type} {content : α → Content} {key : α → κ} {items : List (Timed α)}
    (h : ∀ item ∈ items, identity? (content item.value) = some (key item.value)) :
    heldIn identity? (entriesOf content items) = facts key items := by
  unfold heldIn entriesOf facts
  rw [List.filterMap_map, ← List.filterMap_eq_map]
  exact List.filterMap_congr fun item hi => by simp [h item hi]

theorem heldIn_saved {settings : Settings} {entries : List Entry}
    (hstored : ∀ content : Content, identity? content.stored = identity? content)
    (hw : ∀ entry ∈ entries, identity? entry.content ≠ none → settings.writes entry = true) :
    heldIn identity? ((entries.filter settings.writes).map Entry.stored) =
      heldIn identity? entries := by
  induction entries with
  | nil => rfl
  | cons entry rest ih =>
    obtain ⟨hfirst, hrest⟩ := List.forall_mem_cons.mp hw
    have ih := ih hrest
    unfold heldIn at ih ⊢
    by_cases hk : identity? entry.content = none
    · by_cases hwritten : settings.writes entry
      · rw [List.filter_cons_of_pos hwritten, List.map_cons, List.filterMap_cons,
          List.filterMap_cons]
        simp only [Entry.stored, hstored, hk, Option.map_none]
        exact ih
      · rw [List.filter_cons_of_neg hwritten, List.filterMap_cons]
        simp only [hk, Option.map_none]
        exact ih
    · rw [List.filter_cons_of_pos (hfirst hk), List.map_cons, List.filterMap_cons,
        List.filterMap_cons, ih]
      simp only [Entry.stored, hstored]

end Identities

def Content.historyText? (type : HistoryType) : Content → Option Bytes
  | .history item => if item.type = type then some item.text else none
  | _ => none

theorem Content.kind_of_historyText? {type : HistoryType} (content : Content)
    (h : content.historyText? type ≠ none) : content.kind = .history := by
  cases content with
  | history => rfl
  | _ => exact absurd rfl h

def Content.jumpPlace? : Content → Option (List Component × UInt64 × UInt64)
  | .jump mark => some mark.place
  | _ => none

theorem Content.kind_of_jumpPlace? (content : Content) (h : content.jumpPlace? ≠ none) :
    content.kind = .jump := by
  cases content with
  | jump => rfl
  | _ => exact absurd rfl h

theorem Entry.Sound.writes {settings : Settings} {entry : Entry} (h : entry.Sound)
    (hr : entry.kind ≠ .register) : settings.writes entry = true := by
  obtain ⟨timestamp, content⟩ := entry
  have hroom : content.HasRoom := by
    cases content with
    | register => exact absurd rfl hr
    | _ => trivial
  have hlimit : settings.exceedsLineLimit ⟨timestamp, content⟩ = false := by
    cases content with
    | register => exact absurd rfl hr
    | _ => rfl
  obtain ⟨payload, hp, -⟩ := Content.decode_encode (h.storable hroom)
  rw [Settings.writes, hlimit, Entry.frame?, hp]
  rfl

namespace Merge

variable {settings : Settings} {type : HistoryType} {m : Merge}

structure KeepsHistory (settings : Settings) (type : HistoryType)
    (seen : Bytes → Timestamp → Prop) (m : Merge) : Prop where
  capacity : (m.history.get type).capacity = settings.history.get type
  oldestFirst : OldestFirst (m.history.get type).items
  newest : NewestKept (settings.history.get type) seen
    (facts HistoryItem.text (m.history.get type).items)

theorem keepsHistory_start (settings : Settings) (type : HistoryType) :
    (start settings).KeepsHistory settings type fun _ _ => False := by
  refine ⟨?_, ?_, ?_⟩
  all_goals rw [get_history_start]
  · exact .nil
  · exact .nil _

theorem KeepsHistory.congr {seen seen' : Bytes → Timestamp → Prop}
    (h : m.KeepsHistory settings type seen) (hs : ∀ k t, seen' k t ↔ seen k t) :
    m.KeepsHistory settings type seen' :=
  ⟨h.capacity, h.oldestFirst, h.newest.congr hs⟩

theorem KeepsHistory.absorb {seen : Bytes → Timestamp → Prop}
    (h : m.KeepsHistory settings type seen) (entry : Entry) :
    (m.absorb settings entry).KeepsHistory settings type fun k t =>
      seen k t ∨ (entry.content.historyText? type = some k ∧ entry.timestamp = t) := by
  have hother (he : (m.absorb settings entry).history.get type = m.history.get type)
      (ht : entry.content.historyText? type = none) :
      (m.absorb settings entry).KeepsHistory settings type fun k t =>
        seen k t ∨ (entry.content.historyText? type = some k ∧ entry.timestamp = t) := by
    have hsame : (m.absorb settings entry).KeepsHistory settings type seen :=
      ⟨he ▸ h.capacity, he ▸ h.oldestFirst, he ▸ h.newest⟩
    exact hsame.congr fun k t => by simp [ht]
  obtain ⟨timestamp, content⟩ := entry
  cases content with
  | history item =>
    have hhistory := history_absorb settings m ⟨timestamp, .history item⟩
    dsimp only at hhistory
    by_cases ht : item.type = type
    · subst ht
      have hnewest := h.newest
      rw [← h.capacity] at hnewest
      have hinsert := HistoryRing.newestKept_insert hnewest h.oldestFirst ⟨timestamp, item⟩ false
      rw [h.capacity] at hinsert
      have hkeeps : (m.absorb settings ⟨timestamp, .history item⟩).KeepsHistory settings item.type
          fun k t => seen k t ∨ (k = item.text ∧ t = timestamp) := by
        refine ⟨?_, ?_, ?_⟩
        all_goals rw [hhistory, PerHistory.get_set_self]
        · rw [HistoryRing.capacity_insert, h.capacity]
        · exact HistoryRing.oldestFirst_insert h.oldestFirst _ _
        · exact hinsert
      refine hkeeps.congr fun k t => or_congr_right ?_
      simp only [Content.historyText?, if_pos, Option.some.injEq]
      exact and_congr eq_comm eq_comm
    · refine hother ?_ (if_neg ht)
      rw [hhistory, PerHistory.get_set_of_ne _ _ (Ne.symm ht)]
  | _ => exact hother (congrArg (PerHistory.get · type) (history_absorb settings m _)) rfl

theorem KeepsHistory.foldl_absorb {seen : Bytes → Timestamp → Prop}
    (h : m.KeepsHistory settings type seen) (entries : List Entry) :
    (entries.foldl (Merge.absorb settings) m).KeepsHistory settings type fun k t =>
      seen k t ∨ SeenIn (Content.historyText? type) (· ∈ entries) k t := by
  induction entries generalizing m seen with
  | nil => exact h.congr fun k t => by simp [SeenIn]
  | cons entry rest ih =>
    apply (ih (h.absorb entry)).congr
    intro k t
    simp [SeenIn, or_assoc]

structure KeepsJumps (settings : Settings)
    (seen : List Component × UInt64 × UInt64 → Timestamp → Prop) (m : Merge) : Prop where
  capacity : m.jumps.capacity = settings.jumps
  newest : NewestKept settings.jumps seen (facts Mark.place m.jumps.items)

theorem KeepsJumps.congr {seen seen' : List Component × UInt64 × UInt64 → Timestamp → Prop}
    (h : m.KeepsJumps settings seen) (hs : ∀ k t, seen' k t ↔ seen k t) :
    m.KeepsJumps settings seen' :=
  ⟨h.capacity, h.newest.congr hs⟩

theorem KeepsJumps.absorb {seen : List Component × UInt64 × UInt64 → Timestamp → Prop}
    (hr : settings.removable = []) (h : m.KeepsJumps settings seen) (entry : Entry) :
    (m.absorb settings entry).KeepsJumps settings fun k t =>
      seen k t ∨ (entry.content.jumpPlace? = some k ∧ entry.timestamp = t) := by
  have hother (he : (m.absorb settings entry).jumps = m.jumps)
      (ht : entry.content.jumpPlace? = none) :
      (m.absorb settings entry).KeepsJumps settings fun k t =>
        seen k t ∨ (entry.content.jumpPlace? = some k ∧ entry.timestamp = t) := by
    have hsame : (m.absorb settings entry).KeepsJumps settings seen :=
      ⟨he ▸ h.capacity, he ▸ h.newest⟩
    exact hsame.congr fun k t => by simp [ht]
  obtain ⟨timestamp, content⟩ := entry
  cases content with
  | jump mark =>
    have hjumps := jumps_absorb settings m ⟨timestamp, .jump mark⟩
    have hkept : settings.isRemovable mark.file = false := by rw [Settings.isRemovable, hr]; rfl
    simp only [hkept, Bool.false_eq_true, if_false] at hjumps
    have hnewest := h.newest
    rw [← h.capacity] at hnewest
    have hinsert := Bounded.newestKept_insert Mark.sameLocation_iff hnewest ⟨timestamp, mark⟩
    rw [h.capacity] at hinsert
    have hkeeps : (m.absorb settings ⟨timestamp, .jump mark⟩).KeepsJumps settings
        fun k t => seen k t ∨ (k = mark.place ∧ t = timestamp) := by
      refine ⟨?_, ?_⟩
      all_goals rw [hjumps]
      · rw [Bounded.capacity_insert, h.capacity]
      · exact hinsert
    refine hkeeps.congr fun k t => or_congr_right ?_
    simp only [Content.jumpPlace?, Option.some.injEq]
    exact and_congr eq_comm eq_comm
  | _ => exact hother (jumps_absorb settings m _) rfl

theorem KeepsJumps.foldl_absorb {seen : List Component × UInt64 × UInt64 → Timestamp → Prop}
    (hr : settings.removable = []) (h : m.KeepsJumps settings seen) (entries : List Entry) :
    (entries.foldl (Merge.absorb settings) m).KeepsJumps settings fun k t =>
      seen k t ∨ SeenIn Content.jumpPlace? (· ∈ entries) k t := by
  induction entries generalizing m seen with
  | nil => exact h.congr fun k t => by simp [SeenIn]
  | cons entry rest ih =>
    apply (ih (h.absorb hr entry)).congr
    intro k t
    simp [SeenIn, or_assoc]

/-- Every line is filed under its own kind. -/
def Filed (m : Merge) : Prop := ∀ type, ∀ item ∈ (m.history.get type).items, item.value.type = type

theorem filed_start (settings : Settings) : (start settings).Filed := by simp [Filed, start]

theorem Filed.absorb (h : m.Filed) (entry : Entry) : (m.absorb settings entry).Filed := by
  intro type item hi
  rw [history_absorb] at hi
  split at hi
  · next line hl =>
    by_cases ht : type = line.type
    · subst ht
      rw [PerHistory.get_set_self] at hi
      exact HistoryRing.forall_insert (P := (·.value.type = line.type)) (h _) rfl item hi
    · rw [PerHistory.get_set_of_ne _ _ ht] at hi
      exact h type item hi
  · exact h type item hi

theorem Filed.foldl_absorb (h : m.Filed) (entries : List Entry) :
    (entries.foldl (Merge.absorb settings) m).Filed := by
  induction entries generalizing m with
  | nil => exact h
  | cons entry rest ih => exact ih (h.absorb entry)

section Held

variable {occasion : Occasion} {session : Session}

theorem heldIn_history (h : m.Filed) (hu : ∀ entry ∈ m.unknown, entry.kind = .unknown)
    (type : HistoryType) :
    heldIn (Content.historyText? type) (m.entries settings occasion session) =
      facts HistoryItem.text (m.history.get type).items := by
  have hlist (other : HistoryType) :
      heldIn (Content.historyText? type) (entriesOf .history (m.history.get other).items) =
        if other = type then facts HistoryItem.text (m.history.get type).items else [] := by
    by_cases ho : other = type
    · subst ho
      rw [if_pos rfl]
      exact heldIn_entriesOf fun item hi => if_pos (h _ item hi)
    · rw [if_neg ho]
      refine heldIn_eq_nil (List.forall_mem_map.mpr fun item hi => if_neg ?_)
      rwa [h other item hi]
  rw [← heldIn_filter_kind Content.kind_of_historyText?, filter_kind_entries occasion hu, part,
    heldIn_flatMap]
  simp only [hlist]
  cases type <;> simp [HistoryType.all]

theorem heldIn_jumps (hu : ∀ entry ∈ m.unknown, entry.kind = .unknown) :
    heldIn Content.jumpPlace? (m.entries settings occasion session) =
      facts Mark.place m.jumps.items := by
  rw [← heldIn_filter_kind Content.kind_of_jumpPlace?, filter_kind_entries occasion hu]
  exact heldIn_entriesOf fun _ _ => rfl

end Held

end Merge

end SessionStore
