/-
# Cctools.Theory.Knockout -- one champion, many challengers

A champion meets challengers in turn and `pick challenger champion` says who goes on, if
it says anything.  The order of the challengers matters unless one participant wins all
of its matches.
-/
import Cctools.Theory.Transducer

namespace Cctools.Theory

set_option autoImplicit false

variable {α ε : Type} (pick : α → α → Except ε α)

/-- The first participant becomes champion without a match. -/
def meet : Option α → α → Except ε (Option α)
  | none, challenger => .ok (some challenger)
  | some champion, challenger => (pick challenger champion).map some

def knockout (champion : Option α) (challengers : List α) : Except ε (Option α) :=
  challengers.foldlM (meet pick) champion

/-- Wins every match with the other that has a winner. -/
def Beats (a b : α) : Prop := (∀ c, pick a b = .ok c → c = a) ∧ ∀ c, pick b a = .ok c → c = a

variable {pick} {champion final : Option α} {a : α} {challengers : List α}

theorem knockout_cons :
    knockout pick champion (a :: challengers)
      = (meet pick champion a).bind fun next => knockout pick next challengers := rfl

theorem knockout_append {before rest : List α} :
    knockout pick champion (before ++ rest)
      = (knockout pick champion before).bind fun next => knockout pick next rest :=
  List.foldlM_append

theorem meet_ok (isOk : meet pick champion a = .ok final) :
    champion = none ∧ final = some a ∨
      ∃ current winner, champion = some current ∧ pick a current = .ok winner ∧ final = some winner := by
  cases champion with
  | none => exact .inl ⟨rfl, (Except.ok.inj isOk).symm⟩
  | some current =>
    obtain ⟨winner, picked, rfl⟩ := ok_of_map isOk
    exact .inr ⟨current, winner, rfl, picked, rfl⟩

theorem knockout_stays (beats : ∀ b ∈ challengers, Beats pick a b)
    (isOk : knockout pick (some a) challengers = .ok final) : final = some a := by
  induction challengers with
  | nil => exact (Except.ok.inj isOk).symm
  | cons b rest ih =>
    rw [knockout_cons] at isOk
    obtain ⟨next, met, more⟩ := ok_of_bind isOk
    obtain ⟨winner, picked, rfl⟩ := ok_of_map met
    obtain rfl := (beats b List.mem_cons_self).2 winner picked
    exact ih (fun c listed => beats c (List.mem_cons_of_mem _ listed)) more

theorem knockout_mem {winner : α} (onePick : ∀ a b c, pick a b = .ok c → c = a ∨ c = b)
    (isOk : knockout pick champion challengers = .ok (some winner)) :
    champion = some winner ∨ winner ∈ challengers := by
  induction challengers generalizing champion with
  | nil =>
    obtain rfl := Except.ok.inj isOk
    exact .inl rfl
  | cons b rest ih =>
    rw [knockout_cons] at isOk
    obtain ⟨next, met, more⟩ := ok_of_bind isOk
    rcases ih more with here | later
    · rcases meet_ok met with ⟨-, isNew⟩ | ⟨old, stays, began, picked, isNext⟩
      · obtain rfl := Option.some.inj (here.symm.trans isNew)
        exact .inr List.mem_cons_self
      · obtain rfl := Option.some.inj (here.symm.trans isNext)
        rcases onePick b old _ picked with rfl | rfl
        · exact .inr List.mem_cons_self
        · exact .inl began
    · exact .inr (List.mem_cons_of_mem _ later)

section Total

variable {among : α → Prop} {challengers : List α}

/-- When every match among some has a winner, so has a knockout among them. -/
theorem knockout_total (onePick : ∀ a b c, pick a b = .ok c → c = a ∨ c = b)
    (total : ∀ a b, among a → among b → ∃ c, pick a b = .ok c) (first : among a)
    (all : ∀ b ∈ challengers, among b) :
    ∃ winner ∈ a :: challengers, knockout pick (some a) challengers = .ok (some winner) := by
  induction challengers generalizing a with
  | nil => exact ⟨a, List.mem_cons_self, rfl⟩
  | cons b rest ih =>
    obtain ⟨here, others⟩ := List.forall_mem_cons.mp all
    obtain ⟨c, picked⟩ := total b a here first
    have isOne := onePick b a c picked
    have next : among c := by rcases isOne with rfl | rfl <;> assumption
    obtain ⟨winner, listed, reached⟩ := ih next others
    refine ⟨winner, ?_, ?_⟩
    · rcases List.mem_cons.mp listed with rfl | later
      · rcases isOne with rfl | rfl
        · exact List.mem_cons_of_mem _ List.mem_cons_self
        · exact List.mem_cons_self
      · exact List.mem_cons_of_mem _ (List.mem_cons_of_mem _ later)
    · rw [knockout_cons, meet, picked]
      exact reached

theorem knockout_total_none (onePick : ∀ a b c, pick a b = .ok c → c = a ∨ c = b)
    (total : ∀ a b, among a → among b → ∃ c, pick a b = .ok c) (all : ∀ b ∈ challengers, among b)
    (some_ : challengers ≠ []) : ∃ winner ∈ challengers, knockout pick none challengers = .ok (some winner) := by
  cases challengers with
  | nil => exact absurd rfl some_
  | cons b rest =>
    obtain ⟨here, others⟩ := List.forall_mem_cons.mp all
    exact knockout_total onePick total here others

end Total

/-- A champion that wins against each of some challengers stays. -/
theorem knockout_wins (wins : ∀ b ∈ challengers, pick b a = .ok a) :
    knockout pick (some a) challengers = .ok (some a) := by
  induction challengers with
  | nil => rfl
  | cons b rest ih =>
    obtain ⟨here, others⟩ := List.forall_mem_cons.mp wins
    rw [knockout_cons, meet, here]
    exact ih others

/-- **A participant that beats all others wins in every order.** -/
theorem knockout_unbeaten {participants : List α} (onePick : ∀ a b c, pick a b = .ok c → c = a ∨ c = b)
    (unique : participants.Nodup) (member : a ∈ participants) (beats : ∀ b ∈ participants, b ≠ a → Beats pick a b)
    (isOk : knockout pick none participants = .ok final) : final = some a := by
  obtain ⟨before, rest, rfl⟩ := List.append_of_mem member
  have apart := List.nodup_append.mp unique
  have notLater : a ∉ rest := (List.nodup_cons.mp apart.2.1).1
  rw [knockout_append] at isOk
  obtain ⟨champion, reached, more⟩ := ok_of_bind isOk
  rw [knockout_cons] at more
  obtain ⟨next, met, last⟩ := ok_of_bind more
  have earlier : ∀ current, champion = some current → current ∈ before := by
    rintro current rfl
    rcases knockout_mem onePick reached with began | listed
    · cases began
    · exact listed
  have won : next = some a := by
    rcases meet_ok met with ⟨-, won⟩ | ⟨current, winner, was, picked, rfl⟩
    · exact won
    · have listed := earlier current was
      have differ : current ≠ a := fun same => apart.2.2 current listed a List.mem_cons_self same
      rw [(beats current (List.mem_append_left _ listed) differ).1 winner picked]
  rw [won] at last
  refine knockout_stays (fun b listed => beats b ?_ ?_) last
  · exact List.mem_append_right _ (List.mem_cons_of_mem _ listed)
  · rintro rfl
    exact notLater listed

end Cctools.Theory
