/-
# Cctools.Scrub.LineCount -- the newlines that come out of the scrubber

Newlines inside comments and after a backslash in a string are owed in `add_newlines`
and given at a later newline.  Each newline of the input is given, owed or lost: the one
quoted in a character constant is lost, and what is still owed at the end is never given,
as the newline behind a comment or a line directive does not look at the debt.

A call is a number of rounds of `flushchar`; the account is kept round by round
(`round_account`), and `run_account` adds it up over a run to `EOF`.
-/
import Cctools.Scrub.Progress

namespace Cctools.Scrub

open Cctools.Read (Text ascii newline)

set_option autoImplicit false

/-! ## Texts that end in a newline -/

def newlines (text : Text) : Nat := text.count newline

/-- Nothing, or lines. -/
def Lined (text : Text) : Prop := text = [] ∨ ∃ body, text = body ++ [newline]

theorem Lined.of_suffix {left text : Text} (lined : Lined text) (suffix : left <:+ text) : Lined left := by
  rcases lined with rfl | ⟨body, rfl⟩
  · exact .inl (List.suffix_nil.mp suffix)
  · rcases List.suffix_concat_iff.mp suffix with rfl | ⟨rest, rfl, _⟩
    · exact .inl rfl
    · exact .inr ⟨rest, rfl⟩

/-- What follows another character than a newline has a newline. -/
theorem Lined.rest {c : UInt8} {rest : Text} (lined : Lined (c :: rest)) (other : c ≠ newline) :
    newline ∈ rest := by
  rcases lined with none | ⟨body, is⟩
  · cases none
  · have member : newline ∈ c :: rest := by simp [is]
    exact (List.mem_cons.mp member).resolve_left (Ne.symm other)

theorem newlines_cons_other {c : UInt8} (other : c ≠ newline) (rest : Text) : newlines (c :: rest) = newlines rest :=
  List.count_cons_of_ne other

theorem newlines_cons_newline (rest : Text) : newlines (newline :: rest) = newlines rest + 1 := List.count_cons_self

/-- Characters that are dropped up to one that stays hold no newline. -/
theorem newlines_dropWhile {p : UInt8 → Bool} (keeps : p newline = false) (text : Text) :
    newlines (text.dropWhile p) = newlines text := by
  induction text with
  | nil => rfl
  | cons c rest ih =>
    rw [List.dropWhile_cons]
    split
    · rename_i dropped
      have other : c ≠ newline := by
        rintro rfl
        rw [keeps] at dropped
        cases dropped
      rw [ih, newlines_cons_other other]
    · rfl

theorem newlines_toLineEnd (text : Text) : newlines (toLineEnd text) = newlines text :=
  newlines_dropWhile (by simp) text

theorem toLineEnd_cons {text : Text} (some_ : newline ∈ text) :
    toLineEnd text = newline :: (toLineEnd text).tail := by
  induction text with
  | nil => cases some_
  | cons c rest ih =>
    rw [toLineEnd, List.dropWhile_cons]
    split
    · rename_i dropped
      exact ih ((List.mem_cons.mp some_).resolve_left (Ne.symm (of_decide_eq_true dropped)))
    · rename_i stays
      rw [List.tail_cons, of_not_not (fun other => stays (decide_eq_true other))]

theorem newlines_line {text : Text} (some_ : newline ∈ text) :
    newlines text = newlines (toLineEnd text).tail + 1 := by
  rw [← newlines_toLineEnd text, toLineEnd_cons some_, newlines_cons_newline, List.tail_cons]

/-- A comment that has its end. -/
def closed : Text → Bool
  | 42 :: 47 :: _ => true
  | _ :: rest => closed rest
  | [] => false

theorem skipComment_newlines (text : Text) : (skipComment text).1 + newlines (skipComment text).2 = newlines text := by
  fun_induction skipComment text with
  | case1 rest => rw [newlines_cons_other (by decide), newlines_cons_other (by decide), Nat.zero_add]
  | case2 c rest _ ih =>
    by_cases is : c = newline
    · rw [is, newlines_cons_newline, if_pos rfl]
      dsimp only
      omega
    · rw [newlines_cons_other is, if_neg is]
      exact ih
  | case3 => rfl

theorem skipComment_suffix (text : Text) : (skipComment text).2 <:+ text := by
  fun_induction skipComment text with
  | case1 rest => exact List.suffix_append [42, 47] rest
  | case2 c rest _ ih => exact ih.trans (List.suffix_cons c rest)
  | case3 => exact List.suffix_refl _

/-- Behind the end of a comment the text goes on to its last newline. -/
theorem skipComment_lined {text : Text} (lined : Lined text) (ends : closed text = true) :
    newline ∈ (skipComment text).2 := by
  fun_induction skipComment text with
  | case1 rest =>
    have star := lined.rest (by decide)
    exact (List.mem_cons.mp star).resolve_left (by decide)
  | case2 c rest other ih =>
    have more : closed rest = true := by
      rw [closed] at ends
      · exact ends
      · exact other
    exact ih (lined.of_suffix (List.suffix_cons c rest)) more
  | case3 => cases ends

theorem Lined.cons {text : Text} (lined : Lined text) (some_ : newline ∈ text) (c : UInt8) : Lined (c :: text) := by
  rcases lined with rfl | ⟨body, rfl⟩
  · cases some_
  · exact .inr ⟨c :: body, rfl⟩

/-! ## One round -/

section Rounds

variable (target : Target)

/-- What the account needs of a state and what is left to read. -/
structure Orderly (scrub : Context) (text : Text) : Prop where
  sane : Sane scrub
  quiet : scrub.state = .output → newline ∉ scrub.outText
  lined : Lined text ∨ (scrub.state = .string ∧ text = [110])
  more : scrub.state = .fileRest ∨ scrub.state = .fileName ∨ (scrub.state = .output ∧ scrub.oldState = .fileName) →
    text ≠ []

/-- A newline in a character constant is lost. -/
def loses (scrub : Context) (text : Text) : Bool :=
  scrub.state.flushes && !target.quotes && text.head? = some 39 && text.tail.head? = some newline

/-- A newline is given, still to come, owed or lost. -/
def Balances (total : Nat) (lost : Bool) (ch : Option UInt8) (scrub : Context) (rest : Text) : Prop :=
  newlines rest + scrub.addNewlines + (if ch = some newline then 1 else 0) + (if lost then 1 else 0) = total

def PassBalances (total : Nat) (lost : Bool) (text : Text) : Pass → Prop
  | .done ch scrub rest => Orderly scrub rest ∧ Balances total lost ch scrub rest ∧ (ch = none → text = [])
  | .again scrub rest =>
    scrub.state.flushes = true ∧ Lined rest ∧ newlines rest + scrub.addNewlines = total ∧ lost = false

variable {scrub : Context}

theorem orderly_flushes (flushes : scrub.state.flushes = true) {text : Text} (lined : Lined text) :
    Orderly scrub text := by
  refine ⟨sane_of_flushes flushes, fun is => absurd is (saves_nothing flushes).1, .inl lined, ?_⟩
  rintro (is | is | ⟨is, _⟩) <;> rw [is] at flushes <;> cases flushes

variable {c : UInt8}

/-- A character other than a newline is given, and the state is one of `flushchar`. -/
theorem plain_balances {total : Nat} {rest text : Text}
    (flushes : scrub.state.flushes = true) (lined : Lined rest) (other : c ≠ newline)
    (total_ : newlines rest + scrub.addNewlines = total) : PassBalances total false text (.done (some c) scrub rest) := by
  refine ⟨orderly_flushes flushes lined, ?_, by simp⟩
  rw [Balances, if_neg (fun same => other (Option.some.inj same)), if_neg (by decide)]
  exact total_

theorem newline_balances {total : Nat} {rest text : Text}
    (flushes : scrub.state.flushes = true) (lined : Lined rest)
    (total_ : newlines rest + scrub.addNewlines + 1 = total) :
    PassBalances total false text (.done (some newline) scrub rest) := by
  refine ⟨orderly_flushes flushes lined, ?_, by simp⟩
  rw [Balances, if_pos rfl, if_neg (by decide)]
  exact total_

theorem Lined.line {text : Text} (lined : Lined text) : Lined (toLineEnd text).tail :=
  lined.of_suffix ((List.tail_suffix _).trans (List.dropWhile_suffix _))

theorem newline_not_white : isWhitespace newline = false := rfl

theorem blanks_balances (flushes : scrub.state.flushes = true) {rest text : Text} (lined : Lined (c :: rest)) :
    PassBalances (newlines (c :: rest) + scrub.addNewlines) false text
      (blanks target (keepOfFile target) scrub (c :: rest)) := by
  have blank : (32 : UInt8) ≠ newline := by decide
  rw [blanks]
  split
  · exact ⟨flushes, lined, rfl, rfl⟩
  rw [keepOfFile]
  split
  · exact plain_balances rfl lined blank rfl
  split
  · split
    · exact plain_balances flushes lined blank rfl
    · exact plain_balances rfl lined blank rfl
  split
  · exact plain_balances flushes lined blank rfl
  split
  · exact ⟨rfl, lined, rfl, rfl⟩
  · exact ⟨flushes, lined, rfl, rfl⟩

theorem misc_balances (flushes : scrub.state.flushes = true) {rest text : Text}
    (lined : Lined (c :: rest)) (other : c ≠ newline) :
    PassBalances (newlines (c :: rest) + scrub.addNewlines) false text (misc target scrub c rest) := by
  have more := lined.rest other
  have restLined := lined.of_suffix (List.suffix_cons c rest)
  have line := newlines_line more
  rw [newlines_cons_other other, misc]
  split
  · have same := newlines_dropWhile newline_not_white rest
    have afterBlanks := restLined.of_suffix (List.dropWhile_suffix isWhitespace)
    split
    · rename_i none
      rw [none] at same
      have zero : newlines rest = 0 := same.symm
      omega
    · rename_i digit after is
      rw [is] at same afterBlanks
      have member : newline ∈ digit :: after := by
        rw [← List.count_pos_iff]
        show 0 < newlines (digit :: after)
        omega
      split
      · refine ⟨⟨⟨fun _ => .inr (.inl rfl), ?_, by simp⟩, fun _ => show newline ∉ ascii "line " by decide, .inl afterBlanks, ?_⟩, ?_, by simp⟩
        · rintro (string | escape)
          · cases string
          · cases escape
        · rintro (is | is | ⟨_, is⟩) <;> cases is
        · rw [Balances, if_neg (by decide), if_neg (by decide)]
          dsimp only
          omega
      · refine newline_balances rfl afterBlanks.line ?_
        have line' := newlines_line member
        show newlines _ + scrub.addNewlines + 1 = _
        omega
  split
  · refine newline_balances rfl restLined.line ?_
    show newlines _ + scrub.addNewlines + 1 = _
    omega
  split
  · exact plain_balances rfl restLined other rfl
  · exact plain_balances flushes restLined other rfl

theorem dealMisc_balances (flushes : scrub.state.flushes = true) {rest text : Text}
    (lined : Lined (c :: rest)) (other : c ≠ newline) :
    PassBalances (newlines (c :: rest) + scrub.addNewlines) false text
      (dealMisc target symbolsOfFile scrub c rest) := by
  rw [dealMisc, symbolsOfFile]
  split_ifs with _ blank second line
  · exact plain_balances rfl lined (by decide) rfl
  · exact misc_balances target rfl lined other
  · exact misc_balances target flushes lined other
  · exact misc_balances target rfl lined other
  · exact misc_balances target flushes lined other

theorem slash_balances (flushes : scrub.state.flushes = true) {rest text : Text}
    (lined : Lined (47 :: rest)) (closes : ∀ body, rest = 42 :: body → closed body = true) :
    PassBalances (newlines (47 :: rest) + scrub.addNewlines) false text
      (slash target symbolsOfFile scrub rest) := by
  have restLined := lined.of_suffix (List.suffix_cons 47 rest)
  have noNewline : (47 : UInt8) ≠ newline := by decide
  rw [slash]
  split
  · rename_i star
    rcases rest with _ | ⟨c, body⟩
    · cases star
    obtain rfl : c = 42 := by simpa using star
    have ends := closes body rfl
    have bodyLined := restLined.of_suffix (List.suffix_cons 42 body)
    have behind := skipComment_lined bodyLined ends
    refine ⟨flushes, (bodyLined.of_suffix (skipComment_suffix body)).cons behind 32, ?_, rfl⟩
    rw [newlines_cons_other noNewline, newlines_cons_other (by decide), List.tail_cons,
      newlines_cons_other (by decide), ← skipComment_newlines body]
    dsimp only
    omega
  split
  · rename_i slashes
    have second : rest.head? = some 47 := by simpa using (Bool.and_eq_true_iff.mp slashes).2
    rcases rest with _ | ⟨c, body⟩
    · cases second
    obtain rfl : c = 47 := by simpa using second
    have bodyLined := restLined.of_suffix (List.suffix_cons 47 body)
    refine ⟨flushes, bodyLined.of_suffix (List.dropWhile_suffix _), ?_, rfl⟩
    rw [List.tail_cons, newlines_toLineEnd, newlines_cons_other noNewline, newlines_cons_other noNewline]
  split
  · exact dealMisc_balances target flushes lined noNewline
  · refine plain_balances flushes restLined noNewline ?_
    rw [newlines_cons_other noNewline]

theorem number_quiet (c : UInt8) : newline ∉ number c := by
  rw [number_eq]
  intro inside
  rcases List.mem_cons.mp inside with is | inside
  · cases is
  · rcases List.mem_append.mp inside with digit | is
    · exact absurd (Theory.Decimal.isDigit_of_mem_printed digit) (by decide)
    · exact absurd (List.mem_singleton.mp is) (by decide)

/-- The input ends in a string or in a comment. -/
def EndsInside (scrub : Context) (text : Text) : Prop :=
  ((scrub.state = .string ∨ scrub.state = .escape) ∧ text = [])
    ∨ (scrub.state.flushes = true ∧ ∃ body, text = 47 :: 42 :: body ∧ closed body = false)

/-- **The account of a round of `flushchar`.** -/
theorem flushPass_balances (flushes : scrub.state.flushes = true) {text : Text}
    (lined : Lined text) (outside : ¬ EndsInside scrub text) :
    PassBalances (newlines text + scrub.addNewlines) (loses target scrub text) text
      (flushPass target (keepOfFile target) symbolsOfFile scrub text) := by
  rcases text with _ | ⟨c, rest⟩
  · refine ⟨orderly_flushes flushes lined, ?_, fun _ => rfl⟩
    have none : loses target scrub [] = false := by simp [loses]
    rw [none, Balances]
    rfl
  have restLined := lined.of_suffix (List.suffix_cons c rest)
  have keeps : ¬ (c = 39 ∧ target.quotes = false) → loses target scrub (c :: rest) = false := by
    intro other
    by_contra lost
    apply other
    simp only [loses, Bool.and_eq_true, Bool.not_eq_false, Bool.not_eq_true', List.head?_cons,
      decide_eq_true_eq, Option.some.injEq] at lost
    exact ⟨lost.1.2, lost.1.1.2⟩
  rw [flushPass]
  split_ifs with blank isSlash quote tick colon second line owed separator
  · rw [keeps (by rintro ⟨rfl, _⟩; revert blank; decide)]
    have other : c ≠ newline := by
      rintro rfl
      revert blank
      decide
    have more := lined.rest other
    have same := newlines_dropWhile newline_not_white rest
    have afterBlanks := restLined.of_suffix (List.dropWhile_suffix isWhitespace)
    rw [newlines_cons_other other, ← same]
    rcases is : rest.dropWhile isWhitespace with _ | ⟨d, after⟩
    · rw [is] at same
      have some_ : 0 < newlines rest := List.count_pos_iff.mpr more
      rw [← same] at some_
      cases some_
    · rw [is] at afterBlanks
      exact blanks_balances target flushes afterBlanks
  · subst isSlash
    rw [keeps (by rintro ⟨is, _⟩; cases is)]
    refine slash_balances target flushes lined ?_
    intro body is
    by_contra opened
    exact outside (.inr ⟨flushes, body, by rw [is], (Bool.not_eq_true _).mp opened⟩)
  · rw [keeps (by rintro ⟨rfl, plain⟩; rcases quote with is | ⟨_, quotes⟩; cases is; rw [plain] at quotes; cases quotes)]
    have other : c ≠ newline := by
      rcases quote with rfl | ⟨rfl, _⟩ <;> decide
    refine ⟨⟨⟨by simp, fun _ => .inl flushes, by simp⟩, by simp, .inl restLined, ?_⟩, ?_, by simp⟩
    · rintro (is | is | ⟨is, _⟩) <;> cases is
    · rw [Balances, if_neg (fun same => other (Option.some.inj same)), if_neg (by decide), newlines_cons_other other]
      rfl
  · subst tick
    have plain : target.quotes = false := by
      by_contra quotes
      exact quote (.inr ⟨rfl, (Bool.not_eq_false _).mp quotes⟩)
    refine ⟨⟨⟨fun _ => .inl flushes, ?_, by simp⟩, ?_, ?_, ?_⟩, ?_, by simp⟩
    · rintro (string | escape)
      · cases string
      · cases escape
    · intro _ inside
      exact number_quiet _ (List.mem_of_mem_drop inside)
    · exact .inl (restLined.of_suffix (List.tail_suffix rest))
    · rintro (is | is | ⟨_, is⟩)
      · cases is
      · cases is
      · dsimp only at is
        rw [is] at flushes
        cases flushes
    · rw [Balances, if_neg (by decide), newlines_cons_other (by decide)]
      rcases rest with _ | ⟨d, after⟩
      · simp [loses]
      · by_cases is : d = newline
        · rw [is, newlines_cons_newline]
          simp only [loses, flushes, plain, List.tail_cons, List.head?_cons]
          dsimp
          omega
        · rw [newlines_cons_other is]
          simp [loses, is]
  · rw [keeps (by rintro ⟨rfl, _⟩; cases colon)]
    subst colon
    exact plain_balances flushes restLined (by decide) (by rw [newlines_cons_other (by decide)])
  · rw [keeps (by rintro ⟨rfl, _⟩; cases colon)]
    subst colon
    exact plain_balances rfl restLined (by decide) (by rw [newlines_cons_other (by decide)]; rfl)
  · rw [keeps (by rintro ⟨rfl, _⟩; cases line)]
    subst line
    exact newline_balances rfl restLined (by
      rw [newlines_cons_newline]
      show newlines rest + scrub.addNewlines + 1 = _
      omega)
  · rw [keeps (by rintro ⟨rfl, _⟩; cases line)]
    subst line
    exact newline_balances rfl lined (by
      show newlines _ + (scrub.addNewlines - 1) + 1 = _
      omega)
  · have other : c ≠ newline := line
    rw [keeps (by rintro ⟨rfl, _⟩; exact tick rfl)]
    exact plain_balances rfl restLined other (by rw [newlines_cons_other other]; rfl)
  · have other : c ≠ newline := line
    rw [keeps (by rintro ⟨rfl, plain⟩; exact tick rfl)]
    exact dealMisc_balances target flushes lined other

/-! ## The debt -/

/-- The round reads a newline as such: the debt is paid before it. -/
def Pays (scrub : Context) (text : Text) : Prop := scrub.state.flushes = true ∧ text.head? = some newline

/-- The round drops the newlines of a comment, or one that is escaped in a string. -/
def Owes (scrub : Context) (text : Text) : Prop :=
  (scrub.state = .escape ∧ text.head? = some newline)
    ∨ (scrub.state.flushes = true ∧ ∃ body, text = 47 :: 42 :: body ∧ newlines body ≠ newlines (skipComment body).2)

/-- What becomes of the debt in a round. -/
def Moves (scrub : Context) (text : Text) (after : Context) (rest : Text) : Prop :=
  (Pays scrub text ∧ (after.addNewlines = 0 ∨ Pays after rest))
    ∨ (Owes scrub text ∧ ¬ Pays scrub text ∧ after.addNewlines ≠ 0)
    ∨ (¬ Owes scrub text ∧ ¬ Pays scrub text ∧ after.addNewlines = scrub.addNewlines)

def Pass.context : Pass → Context
  | .done _ scrub _ => scrub
  | .again scrub _ => scrub

def Pass.text : Pass → Text
  | .done _ _ rest => rest
  | .again _ rest => rest

theorem blanks_debt (scrub : Context) (text : Text) :
    (blanks target (keepOfFile target) scrub text).context.addNewlines = scrub.addNewlines := by
  unfold blanks keepOfFile
  repeat' split
  all_goals rfl

theorem misc_debt (scrub : Context) (c : UInt8) (rest : Text) :
    (misc target scrub c rest).context.addNewlines = scrub.addNewlines := by
  unfold misc
  repeat' split
  all_goals rfl

theorem dealMisc_debt (scrub : Context) (c : UInt8) (rest : Text) :
    (dealMisc target symbolsOfFile scrub c rest).context.addNewlines = scrub.addNewlines := by
  rw [dealMisc, symbolsOfFile]
  split_ifs
  · rfl
  all_goals exact misc_debt target _ c rest

/-- A round that begins neither a comment nor a line keeps the debt. -/
theorem keeps_moves (flushes : scrub.state.flushes = true) {rest : Text} {pass : Pass}
    (other : c ≠ newline) (open_ : ¬ (c = 47 ∧ rest.head? = some 42)) (same : pass.context.addNewlines = scrub.addNewlines) :
    Moves scrub (c :: rest) pass.context pass.text := by
  refine .inr (.inr ⟨?_, fun pays => other (Option.some.inj pays.2), same⟩)
  rintro (⟨escape, _⟩ | ⟨_, body, is, _⟩)
  · exact (saves_nothing flushes).2.1 (.inr escape)
  · cases is
    exact open_ ⟨rfl, rfl⟩

/-- **What a round of `flushchar` does to the debt.** -/
theorem flushPass_moves (flushes : scrub.state.flushes = true) (c : UInt8) (rest : Text) :
    Moves scrub (c :: rest) (flushPass target (keepOfFile target) symbolsOfFile scrub (c :: rest)).context
      (flushPass target (keepOfFile target) symbolsOfFile scrub (c :: rest)).text := by
  rw [flushPass]
  split_ifs with blank isSlash quote tick colon second line owed separator
  · have other : c ≠ newline := by
      rintro rfl
      revert blank
      decide
    exact keeps_moves flushes other (fun open_ => by rw [open_.1] at blank; revert blank; decide) (blanks_debt target scrub _)
  · have other : c ≠ newline := by
      rintro rfl
      cases isSlash
    subst isSlash
    rw [slash]
    split
    · rename_i star
      rcases rest with _ | ⟨d, body⟩
      · cases star
      obtain rfl : d = 42 := by simpa using star
      have count := skipComment_newlines body
      have noPays : ¬ Pays scrub (47 :: 42 :: body) := fun pays => other (Option.some.inj pays.2)
      by_cases none : newlines body = newlines (skipComment body).2
      · refine .inr (.inr ⟨?_, noPays, ?_⟩)
        · rintro (⟨escape, _⟩ | ⟨_, body', is, more⟩)
          · exact (saves_nothing flushes).2.1 (.inr escape)
          · cases is
            exact more none
        · show scrub.addNewlines + (skipComment body).1 = _
          omega
      · refine .inr (.inl ⟨.inr ⟨flushes, body, rfl, none⟩, noPays, ?_⟩)
        show scrub.addNewlines + (skipComment body).1 ≠ 0
        omega
    · rename_i noStar
      have open_ : ¬ ((47 : UInt8) = 47 ∧ rest.head? = some 42) := fun open_ => noStar open_.2
      split_ifs
      · exact keeps_moves flushes other open_ rfl
      · exact keeps_moves flushes other open_ (dealMisc_debt target scrub 47 rest)
      · exact keeps_moves flushes other open_ rfl
  · have other : c ≠ newline := by
      rcases quote with rfl | ⟨rfl, _⟩ <;> decide
    exact keeps_moves flushes other (fun open_ => isSlash open_.1) rfl
  · have other : c ≠ newline := by
      rw [tick]
      decide
    exact keeps_moves flushes other (fun open_ => isSlash open_.1) rfl
  · exact keeps_moves flushes (by rw [colon]; decide) (fun open_ => isSlash open_.1) rfl
  · exact keeps_moves flushes (by rw [colon]; decide) (fun open_ => isSlash open_.1) rfl
  · exact .inl ⟨⟨flushes, by rw [line]; rfl⟩, .inl owed⟩
  · exact .inl ⟨⟨flushes, by rw [line]; rfl⟩, .inr ⟨rfl, by rw [line]; rfl⟩⟩
  · exact keeps_moves flushes line (fun open_ => isSlash open_.1) rfl
  · exact keeps_moves flushes line (fun open_ => isSlash open_.1) (dealMisc_debt target scrub c rest)

/-! ## The calls of the other states -/

theorem loses_other (calls : ¬ scrub.state.flushes = true) (text : Text) :
    loses target scrub text = false := by
  rw [loses, (Bool.not_eq_true _).mp calls]
  rfl

variable {scrub after : Context} {text rest : Text}

/-- A call that neither escapes a newline nor is made at `flushchar`. -/
theorem other_moves (calls : ¬ scrub.state.flushes = true)
    (escape : ¬ (scrub.state = .escape ∧ text.head? = some newline)) (same : after.addNewlines = scrub.addNewlines) :
    Moves scrub text after rest := by
  refine .inr (.inr ⟨?_, fun pays => calls pays.1, same⟩)
  rintro (owes | ⟨flushes, _⟩)
  · exact escape owes
  · exact calls flushes

theorem quiet_moves (calls : ¬ scrub.state.flushes = true)
    (escape : scrub.state ≠ .escape) (same : after.addNewlines = scrub.addNewlines) : Moves scrub text after rest :=
  other_moves calls (fun owes => escape owes.1) same

theorem Orderly.outside {text : Text} (orderly : Orderly scrub text)
    (outside : scrub.state ≠ .string) : Lined text :=
  orderly.lined.resolve_right fun string => outside string.1

/-- The account of a call that is made in another state. -/
def CallBalances (scrub : Context) (text : Text) : Option (Option UInt8 × Context × Text) → Prop
  | none => False
  | some (ch, after, rest) =>
    PassBalances (newlines text + scrub.addNewlines) false text (.done ch after rest)
      ∧ Moves scrub text after rest

theorem balances_char {total : Nat} {rest : Text} (other : c ≠ newline)
    (total_ : newlines rest + scrub.addNewlines = total) : Balances total false (some c) scrub rest := by
  rw [Balances, if_neg (fun same => other (Option.some.inj same)), if_neg (by decide)]
  exact total_

theorem output_balances {text : Text} (orderly : Orderly scrub text)
    (calls : ¬ scrub.state.flushes = true) (output : scrub.state = .output) :
    CallBalances scrub text (doScrubNextChar target scrub text) := by
  have quiet := orderly.quiet output
  have saved := orderly.sane.output output
  have lined := orderly.outside (by rw [output]; decide)
  have next := outText_next scrub .output
  have other : scrub.outText.headD 0 ≠ newline := by
    rcases is : scrub.outText with _ | ⟨c, rest⟩
    · decide
    · rintro rfl
      rw [is] at quiet
      exact quiet (List.mem_cons_self)
  have escape : scrub.state ≠ .escape := by
    rw [output]
    decide
  rw [doScrubNextChar, scrubNextChar.eq_def, output]
  dsimp only
  rw [next]
  split
  · refine ⟨⟨?_, balances_char other rfl, by simp⟩, quiet_moves calls escape rfl⟩
    rcases saved with flushes | lineNumber | fileName
    · exact orderly_flushes flushes lined
    · refine ⟨⟨?_, ?_, ?_⟩, ?_, .inl lined, ?_⟩ <;> dsimp only <;> rw [lineNumber]
      · simp
      · rintro (is | is) <;> cases is
      · simp
      · simp
      · rintro (is | is | ⟨is, _⟩) <;> cases is
    · refine ⟨⟨?_, ?_, ?_⟩, ?_, .inl lined, fun _ => orderly.more (.inr (.inr ⟨output, fileName⟩))⟩ <;>
        dsimp only <;> rw [fileName]
      · simp
      · rintro (is | is) <;> cases is
      · simp
      · simp
  · refine ⟨⟨⟨⟨fun _ => saved, ?_, ?_⟩, ?_, .inl lined, ?_⟩, balances_char other rfl, by simp⟩, quiet_moves calls escape rfl⟩
    · rintro (is | is) <;> cases is
    · simp
    · intro _
      rw [next]
      exact fun inside => quiet (List.mem_of_mem_tail inside)
    · rintro (is | is | ⟨_, is⟩)
      · cases is
      · cases is
      · exact orderly.more (.inr (.inr ⟨output, is⟩))

theorem lineNumber_balances {text : Text} (orderly : Orderly scrub text)
    (calls : ¬ scrub.state.flushes = true) (lineNumber : scrub.state = .lineNumber) :
    CallBalances scrub text (doScrubNextChar target scrub text) := by
  have lined := orderly.outside (by rw [lineNumber]; decide)
  have escape : scrub.state ≠ .escape := by
    rw [lineNumber]
    decide
  rw [doScrubNextChar, scrubNextChar.eq_def, lineNumber]
  rcases text with _ | ⟨c, rest⟩
  · exact ⟨⟨orderly, rfl, fun _ => rfl⟩, quiet_moves calls escape rfl⟩
  have restLined := lined.of_suffix (List.suffix_cons c rest)
  dsimp only
  split
  · rename_i digit
    have other : c ≠ newline := by
      rintro rfl
      cases digit
    refine ⟨⟨⟨orderly.sane, orderly.quiet, .inl restLined, ?_⟩, balances_char other ?_, by simp⟩, quiet_moves calls escape rfl⟩
    · rw [lineNumber]
      rintro (is | is | ⟨is, _⟩) <;> cases is
    · rw [newlines_cons_other other]
  have same := newlines_dropWhile newline_not_white (c :: rest)
  have afterBlanks := lined.of_suffix (List.dropWhile_suffix isWhitespace)
  rw [afterLineNumber]
  split
  · rename_i quote
    have other : target.separator ≠ newline := by
      cases target <;> simp [Target.separator, newline]
    refine ⟨⟨⟨⟨fun _ => .inr (.inr rfl), ?_, by simp⟩, ?_, .inl afterBlanks, ?_⟩, balances_char other ?_, by simp⟩,
      quiet_moves calls escape rfl⟩
    · rintro (is | is) <;> cases is
    · intro _
      dsimp only [Context.outText]
      split <;> decide
    · rintro _ none
      rw [none] at quote
      cases quote
    · rw [same]
  · have member : newline ∈ (c :: rest).dropWhile isWhitespace := by
      rcases lined with none | ⟨body, is⟩
      · cases none
      · rw [← List.count_pos_iff]
        show 0 < newlines _
        rw [same, is]
        simp [newlines]
    have line := toLineEnd_cons member
    have count := newlines_line member
    have head : (toLineEnd ((c :: rest).dropWhile isWhitespace)).head? = some newline := by
      rw [line]
      rfl
    dsimp only
    rw [head]
    refine ⟨newline_balances rfl afterBlanks.line ?_, quiet_moves calls escape rfl⟩
    show newlines _ + scrub.addNewlines + 1 = _
    omega

/-- A state that does not put out, be it in a string or not. -/
theorem orderly_string {text : Text} (string : scrub.state = .string ∨ scrub.state = .escape)
    (saved : scrub.oldState.flushes = true ∨ scrub.oldState = .fileRest) (lined : Lined text ∨ (scrub.state = .string ∧ text = [110])) :
    Orderly scrub text := by
  refine ⟨⟨?_, fun _ => saved, ?_⟩, ?_, lined, ?_⟩
  · intro is
    rcases string with string | string <;> rw [string] at is <;> cases is
  · rcases string with string | string <;> rw [string] <;> simp
  · intro is
    rcases string with string | string <;> rw [string] at is <;> cases is
  · rintro (is | is | ⟨is, _⟩) <;> rcases string with string | string <;> rw [string] at is <;> cases is

theorem string_balances {text : Text} (orderly : Orderly scrub text)
    (calls : ¬ scrub.state.flushes = true) (string : scrub.state = .string)
    (outside : ¬ EndsInside scrub text) : CallBalances scrub text (doScrubNextChar target scrub text) := by
  have saved := orderly.sane.string (.inl string)
  have escape : scrub.state ≠ .escape := by
    rw [string]
    decide
  rw [doScrubNextChar, scrubNextChar.eq_def, string]
  dsimp only
  rcases text with _ | ⟨c, rest⟩
  · exact absurd (.inl ⟨.inl string, rfl⟩) outside
  -- the text ends in a newline, or it is what an escaped newline has put back
  have restLined : Lined rest := by
    rcases orderly.lined with lined | ⟨_, is⟩
    · exact lined.of_suffix (List.suffix_cons c rest)
    · cases is
      exact .inl rfl
  rw [inString]
  split
  · rename_i quote
    have other : c ≠ newline := by
      rcases quote with rfl | ⟨rfl, _⟩ <;> decide
    have lined : Lined (c :: rest) := by
      rcases orderly.lined with lined | ⟨_, is⟩
      · exact lined
      · cases is
        revert quote
        simp
    have more : rest ≠ [] := List.ne_nil_of_mem (lined.rest other)
    refine ⟨⟨?_, balances_char other ?_, by simp⟩, quiet_moves calls escape rfl⟩
    · rcases saved with flushes | fileRest
      · exact orderly_flushes flushes restLined
      · refine ⟨⟨?_, ?_, ?_⟩, ?_, .inl restLined, fun _ => more⟩ <;> dsimp only <;> rw [fileRest]
        · simp
        · rintro (is | is) <;> cases is
        · simp
        · simp
    · rw [newlines_cons_other other]
  split
  · rename_i backslash
    have other : c ≠ newline := by
      rw [backslash]
      decide
    refine ⟨⟨orderly_string (.inr rfl) saved (.inl restLined), balances_char other ?_, by simp⟩, quiet_moves calls escape rfl⟩
    rw [newlines_cons_other other]
  · refine ⟨⟨orderly_string (.inl string) saved (.inl restLined), ?_, by simp⟩, quiet_moves calls escape rfl⟩
    by_cases is : c = newline
    · rw [is, Balances, if_pos rfl, if_neg (by decide), newlines_cons_newline]
      omega
    · exact balances_char is (by rw [newlines_cons_other is])

theorem escape_balances {text : Text} (orderly : Orderly scrub text)
    (calls : ¬ scrub.state.flushes = true) (escape : scrub.state = .escape)
    (outside : ¬ EndsInside scrub text) : CallBalances scrub text (doScrubNextChar target scrub text) := by
  have saved := orderly.sane.string (.inr escape)
  have lined := orderly.outside (by rw [escape]; decide)
  rw [doScrubNextChar, scrubNextChar.eq_def, escape]
  dsimp only
  rcases text with _ | ⟨c, rest⟩
  · exact absurd (.inl ⟨.inr escape, rfl⟩) outside
  have restLined := lined.of_suffix (List.suffix_cons c rest)
  rw [inEscape]
  split
  · rename_i is
    subst is
    have putBack : Lined (110 :: rest) ∨ (State.string = .string ∧ 110 :: rest = [110]) := by
      rcases restLined with rfl | ⟨body, rfl⟩
      · exact .inr ⟨rfl, rfl⟩
      · exact .inl (.inr ⟨110 :: body, rfl⟩)
    refine ⟨⟨orderly_string (.inl rfl) saved putBack, balances_char (by decide) ?_, by simp⟩, .inr (.inl ⟨.inl ⟨escape, rfl⟩, ?_, ?_⟩)⟩
    · rw [newlines_cons_other (by decide), newlines_cons_newline]
      dsimp only
      omega
    · exact fun pays => calls pays.1
    · exact Nat.succ_ne_zero _
  · rename_i other
    refine ⟨⟨orderly_string (.inl rfl) saved (.inl restLined), balances_char other ?_, by simp⟩, other_moves calls ?_ rfl⟩
    · rw [newlines_cons_other other]
    · exact fun owes => other (Option.some.inj owes.2)

/-- **The account of a call in a state other than those of `flushchar`.** -/
theorem call_balances {text : Text} (orderly : Orderly scrub text) (calls : ¬ scrub.state.flushes = true)
    (outside : ¬ EndsInside scrub text) : CallBalances scrub text (doScrubNextChar target scrub text) := by
  cases state : scrub.state with
  | lineStart | lineBlank | first | second | symbol | symbolBlank =>
    rw [state] at calls
    exact absurd rfl calls
  | output => exact output_balances target orderly calls state
  | comment => exact absurd state orderly.sane.comment
  | lineNumber => exact lineNumber_balances target orderly calls state
  | string => exact string_balances target orderly calls state outside
  | escape => exact escape_balances target orderly calls state outside
  | fileName =>
    have some_ := orderly.more (.inr (.inl state))
    have lined := orderly.outside (by rw [state]; decide)
    have escape : scrub.state ≠ .escape := by
      rw [state]
      decide
    rw [doScrubNextChar, scrubNextChar.eq_def, state]
    dsimp only
    rcases text with _ | ⟨c, rest⟩
    · exact absurd rfl some_
    have restLined := lined.of_suffix (List.suffix_cons c rest)
    refine ⟨⟨orderly_string (.inl rfl) (.inr rfl) (.inl restLined), ?_, by simp⟩, quiet_moves calls escape rfl⟩
    by_cases is : c = newline
    · rw [is, Balances, List.head?_cons, if_pos rfl, if_neg (by decide), newlines_cons_newline, List.tail_cons]
      dsimp only
      omega
    · exact balances_char is (by rw [newlines_cons_other is]; rfl)
  | fileRest =>
    have some_ := orderly.more (.inl state)
    have lined := orderly.outside (by rw [state]; decide)
    have escape : scrub.state ≠ .escape := by
      rw [state]
      decide
    have member : newline ∈ text := by
      rcases lined with none | ⟨body, rfl⟩
      · exact absurd none some_
      · exact List.mem_append_right body (List.mem_singleton_self _)
    have count := newlines_line member
    rw [doScrubNextChar, scrubNextChar.eq_def, state]
    dsimp only
    rw [if_neg (fun none => toLineEnd_eq_nil.mp none member)]
    refine ⟨newline_balances rfl lined.line ?_, quiet_moves calls escape rfl⟩
    show newlines _ + scrub.addNewlines + 1 = _
    omega

/-! ## Rounds and calls -/

/-- A round of `flushchar`, or a call in another state. -/
def round (scrub : Context) (text : Text) : Option Pass :=
  if scrub.state.flushes then some (flushPass target (keepOfFile target) symbolsOfFile scrub text)
  else (doScrubNextChar target scrub text).map fun (ch, after, rest) => .done ch after rest

/-- Where a round leads, unless it gives `EOF`. -/
def advance (scrub : Context) (text : Text) : Option (Context × Text) :=
  match round target scrub text with
  | some (.again after rest) | some (.done (some _) after rest) => some (after, rest)
  | _ => none

/-- What the run on a text comes to, round by round. -/
inductive Seen : Context → Text → Context → Text → Prop
  | here (scrub : Context) (text : Text) : Seen scrub text scrub text
  | later {scrub : Context} {text : Text} {next : Context × Text} {after : Context} {rest : Text} :
      advance target scrub text = some next → Seen next.1 next.2 after rest → Seen scrub text after rest

theorem flush_rounds : ∀ (rounds more : Nat) (scrub : Context) (text : Text), text.length < rounds →
    flush target (keepOfFile target) symbolsOfFile (rounds + more) scrub text
      = flush target (keepOfFile target) symbolsOfFile rounds scrub text
  | 0, _, _, text, enough => absurd enough (Nat.not_lt_zero text.length)
  | rounds + 1, more, scrub, text, enough => by
      rw [Nat.add_right_comm]
      cases pass : flushPass target (keepOfFile target) symbolsOfFile scrub text with
      | done ch after rest => rw [flush_done pass, flush_done pass]
      | again after rest =>
        have shorter := pass_again pass
        rw [flush_again pass, flush_again pass]
        exact flush_rounds rounds more after rest (by omega)

theorem call_again (flushes : scrub.state.flushes = true)
    (again : flushPass target (keepOfFile target) symbolsOfFile scrub text = .again after rest) :
    doScrubNextChar target scrub text = doScrubNextChar target after rest := by
  have spends := flushPass_spends target flushes text
  rw [again] at spends
  have shorter := pass_again again
  obtain ⟨more, same⟩ := Nat.le.dest (Nat.succ_le_of_lt shorter)
  rw [doScrubNextChar, scrubNextChar_flushes flushes, scrubNextChar_flushes spends.1, flush_again again, ← same,
    flush_rounds target (rest.length + 1) more after rest (Nat.lt_succ_self _)]

theorem call_done {ch : Option UInt8} (is : round target scrub text = some (.done ch after rest)) :
    doScrubNextChar target scrub text = some (ch, after, rest) := by
  rw [round] at is
  split at is
  · rename_i flushes
    rw [doScrubNextChar, scrubNextChar_flushes flushes]
    exact flush_done (Option.some.inj is) text.length
  · cases call : doScrubNextChar target scrub text with
    | none =>
      rw [call] at is
      cases is
    | some found =>
      rw [call] at is
      cases is
      rfl

theorem outputs_again
    (same : doScrubNextChar target scrub text = doScrubNextChar target after rest) (calls : Nat) :
    outputs (doScrubNextChar target) calls scrub text = outputs (doScrubNextChar target) calls after rest := by
  cases calls with
  | zero => rfl
  | succ calls => rw [outputs, same, outputs]

/-- **One round of a run**, with what it does to the account and to the debt. -/
theorem round_account {text : Text} (orderly : Orderly scrub text) (outside : ¬ EndsInside scrub text) :
    ∃ pass, round target scrub text = some pass
      ∧ PassBalances (newlines text + scrub.addNewlines) (loses target scrub text) text pass
      ∧ Moves scrub text pass.context pass.text ∧ PassSpends (measure scrub text) pass := by
  by_cases flushes : scrub.state.flushes = true
  · refine ⟨_, if_pos flushes, ?_, ?_, flushPass_spends target flushes text⟩
    · refine flushPass_balances target flushes (orderly.lined.resolve_right ?_) outside
      rintro ⟨string, _⟩
      rw [string] at flushes
      cases flushes
    · rcases text with _ | ⟨c, rest⟩
      · refine .inr (.inr ⟨?_, ?_, rfl⟩)
        · rintro (⟨_, owes⟩ | ⟨_, body, owes, _⟩) <;> cases owes
        · rintro ⟨_, pays⟩
          cases pays
      · exact flushPass_moves target flushes c rest
  · have account := call_balances target orderly flushes outside
    cases call : doScrubNextChar target scrub text with
    | none =>
      rw [call] at account
      exact account.elim
    | some found =>
      rw [call] at account
      obtain ⟨ch, after, rest⟩ := found
      have free : ¬ Stuck scrub text := by
        intro stuck
        rw [doScrubNextChar_stuck target stuck] at call
        cases call
      obtain ⟨ch', after', rest', call', spends⟩ := doScrubNextChar_spends target orderly.sane text free
      rw [call] at call'
      cases call'
      rw [loses_other target flushes text]
      exact ⟨.done ch after rest, by rw [round, if_neg flushes, call]; rfl, account.1, account.2, spends⟩

/-! ## The whole run -/

/-- What the debt needs to be paid: a round that pays it, and one behind each that adds to it. -/
def Settles (scrub : Context) (text : Text) : Prop :=
  (scrub.addNewlines = 0 ∨ ∃ after rest, Seen target scrub text after rest ∧ Pays after rest)
    ∧ ∀ after rest, Seen target scrub text after rest → Owes after rest →
      ∃ later left, Seen target after rest later left ∧ Pays later left

theorem pays_not_owes {text : Text} (pays : Pays scrub text) : ¬ Owes scrub text := by
  rintro (⟨escape, _⟩ | ⟨_, body, is, _⟩)
  · exact (saves_nothing pays.1).2.1 (.inr escape)
  · rw [is] at pays
    cases pays.2

theorem Settles.of_moves {text : Text} {next : Context × Text} (step : advance target scrub text = some next)
    (moves : Moves scrub text next.1 next.2) : Settles target scrub text ↔ Settles target next.1 next.2 := by
  have behind : ¬ Owes scrub text → ((∀ after rest, Seen target scrub text after rest → Owes after rest →
      ∃ later left, Seen target after rest later left ∧ Pays later left)
        ↔ ∀ after rest, Seen target next.1 next.2 after rest → Owes after rest →
          ∃ later left, Seen target after rest later left ∧ Pays later left) := by
    intro free
    constructor
    · exact fun all after rest seen => all after rest (.later step seen)
    · intro all after rest seen owes
      cases seen with
      | here => exact absurd owes free
      | later step' seen =>
        rw [step] at step'
        cases step'
        exact all after rest seen owes
  have ahead : ¬ Pays scrub text → ((∃ after rest, Seen target scrub text after rest ∧ Pays after rest)
      ↔ ∃ after rest, Seen target next.1 next.2 after rest ∧ Pays after rest) := by
    intro free
    constructor
    · rintro ⟨after, rest, seen, pays⟩
      cases seen with
      | here => exact absurd pays free
      | later step' seen =>
        rw [step] at step'
        cases step'
        exact ⟨after, rest, seen, pays⟩
    · rintro ⟨after, rest, seen, pays⟩
      exact ⟨after, rest, .later step seen, pays⟩
  rcases moves with ⟨pays, paid⟩ | ⟨owes, noPays, owed⟩ | ⟨noOwes, noPays, same⟩
  · have now : ∃ after rest, Seen target scrub text after rest ∧ Pays after rest := ⟨scrub, text, .here scrub text, pays⟩
    have then_ : next.1.addNewlines = 0 ∨ ∃ after rest, Seen target next.1 next.2 after rest ∧ Pays after rest :=
      paid.imp id (fun pays => ⟨_, _, .here _ _, pays⟩)
    exact and_congr (iff_of_true (.inr now) then_) (behind (pays_not_owes pays))
  · constructor
    · rintro ⟨_, all⟩
      exact ⟨.inr ((ahead noPays).mp (all _ _ (.here scrub text) owes)), fun after rest seen => all after rest (.later step seen)⟩
    · rintro ⟨some_, all⟩
      have pays := (ahead noPays).mpr (some_.resolve_left owed)
      refine ⟨.inr pays, ?_⟩
      intro after rest seen owes'
      cases seen with
      | here => exact pays
      | later step' seen =>
        rw [step] at step'
        cases step'
        exact all after rest seen owes'
  · rw [Settles, Settles, behind noOwes, ahead noPays, same]

theorem mem_seen_loses {text : Text} {next : Context × Text} (step : advance target scrub text = some next) :
    (∀ after rest, Seen target scrub text after rest → loses target after rest = false)
      ↔ loses target scrub text = false
        ∧ ∀ after rest, Seen target next.1 next.2 after rest → loses target after rest = false := by
  constructor
  · exact fun all => ⟨all _ _ (.here scrub text), fun after rest seen => all after rest (.later step seen)⟩
  · rintro ⟨now, all⟩ after rest seen
    cases seen with
    | here => exact now
    | later step' seen =>
      rw [step] at step'
      cases step'
      exact all after rest seen

/-- **The run comes to `EOF`, and its newlines are those of the text if nothing is lost and nothing stays owed.** -/
theorem run_account : ∀ (bound : Nat) (scrub : Context) (text : Text), measure scrub text < bound → Orderly scrub text →
    (∀ after rest, Seen target scrub text after rest → ¬ EndsInside after rest) →
    ReachesEof target scrub text ∧ ∃ owed lost : Nat,
      (∀ calls, none ∈ outputs (doScrubNextChar target) calls scrub text →
        (outputs (doScrubNextChar target) calls scrub text).count (some newline) + owed + lost
          = newlines text + scrub.addNewlines)
      ∧ (owed = 0 ↔ Settles target scrub text)
      ∧ (lost = 0 ↔ ∀ after rest, Seen target scrub text after rest → loses target after rest = false)
  | 0, _, _, less, _, _ => absurd less (Nat.not_lt_zero _)
  | bound + 1, scrub, text, less, orderly, outside => by
      obtain ⟨pass, is, balances, moves, spends⟩ := round_account target orderly (outside _ _ (.here scrub text))
      cases pass with
      | again after rest =>
        have flushes : scrub.state.flushes = true := by
          by_contra calls
          rw [round, if_neg calls] at is
          cases call : doScrubNextChar target scrub text <;> rw [call] at is <;> cases is
        have pass : flushPass target (keepOfFile target) symbolsOfFile scrub text = .again after rest := by
          rw [round, if_pos flushes] at is
          exact Option.some.inj is
        have step : advance target scrub text = some (after, rest) := by rw [advance, is]
        obtain ⟨flushes', lined, total, kept⟩ := balances
        have same := outputs_again target (call_again target flushes pass)
        obtain ⟨⟨calls, ended⟩, owed, lost, account, settled, free⟩ :=
          run_account bound after rest (by have := spends.2; omega) (orderly_flushes flushes' lined)
            (fun after' rest' seen => outside after' rest' (.later step seen))
        refine ⟨⟨calls, by rwa [same]⟩, owed, lost, ?_, ?_, ?_⟩
        · intro calls ended
          rw [same] at ended ⊢
          rw [account calls ended, total]
        · rw [settled, Settles.of_moves target step moves]
        · rw [free, mem_seen_loses target step]
          exact ⟨fun all => ⟨kept, all⟩, fun all => all.2⟩
      | done ch after rest =>
        have call := call_done target is
        obtain ⟨orderly', balance, end_⟩ := balances
        cases ch with
        | none =>
          obtain rfl := end_ rfl
          have stop : advance target scrub [] = none := by rw [advance, is]
          have only : ∀ after rest, Seen target scrub [] after rest → after = scrub ∧ rest = [] := by
            intro after rest seen
            cases seen with
            | here => exact ⟨rfl, rfl⟩
            | later step _ =>
              rw [stop] at step
              cases step
          refine ⟨⟨1, by rw [outputs, call]; exact List.mem_singleton_self _⟩, scrub.addNewlines, 0, ?_, ?_, ?_⟩
          · rintro (_ | calls) ended
            · cases ended
            · rw [outputs, call]
              have none : newlines [] = 0 := rfl
              simp [none]
          · constructor
            · intro paid
              refine ⟨.inl paid, ?_⟩
              intro after rest seen owes
              obtain ⟨rfl, rfl⟩ := only _ _ seen
              rcases owes with ⟨_, owes⟩ | ⟨_, body, owes, _⟩ <;> cases owes
            · rintro ⟨paid | ⟨after, rest, seen, pays⟩, _⟩
              · exact paid
              · obtain ⟨rfl, rfl⟩ := only _ _ seen
                cases pays.2
          · refine iff_of_true rfl ?_
            intro after rest seen
            obtain ⟨rfl, rfl⟩ := only _ _ seen
            simp [loses]
        | some c =>
          have step : advance target scrub text = some (after, rest) := by rw [advance, is]
          have less' : measure after rest < measure scrub text := spends.2.resolve_left (by simp)
          obtain ⟨⟨calls, ended⟩, owed, lost, account, settled, free⟩ :=
            run_account bound after rest (by omega) orderly'
              (fun after' rest' seen => outside after' rest' (.later step seen))
          refine ⟨⟨calls + 1, by rw [outputs, call]; exact List.mem_cons_of_mem _ ended⟩, owed,
            lost + (if loses target scrub text then 1 else 0), ?_, ?_, ?_⟩
          · rintro (_ | calls) ended
            · cases ended
            · rw [outputs, call] at ended ⊢
              have more := account calls ((List.mem_cons.mp ended).resolve_left (by simp))
              have given : (some c :: outputs (doScrubNextChar target) calls after rest).count (some newline)
                  = (outputs (doScrubNextChar target) calls after rest).count (some newline)
                    + (if some c = some newline then 1 else 0) := by
                simp only [List.count_cons, beq_iff_eq]
              rw [given, ← balance]
              omega
          · rw [settled, Settles.of_moves target step moves]
          · rw [mem_seen_loses target step, ← free]
            cases loses target scrub text <;> simp

end Rounds

theorem start_orderly (body : Text) : Orderly .start (body ++ [newline]) :=
  orderly_flushes rfl (.inr ⟨body, rfl⟩)

/-- **A text that ends in a newline, outside strings and comments, comes out with its newlines** if and only
if none is quoted in a character constant, and behind each round that owes some a newline is read as such. -/
theorem doScrubNextChar_lines_iff (target : Target) (body : Text)
    (outside : ∀ after rest, Seen target .start (body ++ [newline]) after rest → ¬ EndsInside after rest) :
    ReachesEof target .start (body ++ [newline]) ∧
      ∀ calls, none ∈ outputs (doScrubNextChar target) calls .start (body ++ [newline]) →
        ((outputs (doScrubNextChar target) calls .start (body ++ [newline])).count (some newline)
            = newlines (body ++ [newline])
          ↔ (∀ after rest, Seen target .start (body ++ [newline]) after rest → loses target after rest = false)
            ∧ ∀ after rest, Seen target .start (body ++ [newline]) after rest → Owes after rest →
              ∃ later left, Seen target after rest later left ∧ Pays later left) := by
  obtain ⟨ends, owed, lost, account, settled, free⟩ :=
    run_account target _ .start (body ++ [newline]) (Nat.lt_succ_self _) (start_orderly body) outside
  refine ⟨ends, ?_⟩
  intro calls ended
  have total := account calls ended
  have nothing : (Context.start).addNewlines = 0 := rfl
  rw [nothing] at total
  rw [← free]
  have paid : owed = 0 ↔ ∀ after rest, Seen target .start (body ++ [newline]) after rest → Owes after rest →
      ∃ later left, Seen target after rest later left ∧ Pays later left := by
    rw [settled, Settles]
    exact ⟨fun both => both.2, fun all => ⟨.inl rfl, all⟩⟩
  rw [← paid]
  omega

/-- What is seen is here, or is seen from the next position. -/
theorem Seen.of_advance {target : Target} {scrub after : Context} {text rest : Text}
    (seen : Seen target scrub text after rest) (next : Option (Context × Text)) (step : advance target scrub text = next) :
    (after = scrub ∧ rest = text) ∨ ∃ found, next = some found ∧ Seen target found.1 found.2 after rest := by
  cases seen with
  | here => exact .inl ⟨rfl, rfl⟩
  | later step' seen => exact .inr ⟨_, by rw [← step, step'], seen⟩

theorem outside_of_head {scrub : Context} {c : UInt8} {rest : Text} (other : c ≠ 47) : ¬ EndsInside scrub (c :: rest) := by
  rintro (⟨_, none⟩ | ⟨_, body, is, _⟩)
  · cases none
  · cases is
    exact other rfl

theorem outside_of_flushes {scrub : Context} (flushes : scrub.state.flushes = true) : ¬ EndsInside scrub [] := by
  rintro (⟨string, _⟩ | ⟨_, body, is, _⟩)
  · exact (saves_nothing flushes).2.1 string
  · cases is

theorem oneLine_outside (after : Context) (rest : Text) (seen : Seen .arm .start (ascii "a\n") after rest) :
    ¬ EndsInside after rest := by
  rcases seen.of_advance (some (⟨.first, false, .lineStart, .literal [], [], 0⟩, [newline])) (by decide) with
    ⟨rfl, rfl⟩ | ⟨_, ⟨⟩, seen⟩
  · exact outside_of_head (by decide)
  rcases seen.of_advance (some (.start, [])) (by decide) with ⟨rfl, rfl⟩ | ⟨_, ⟨⟩, seen⟩
  · exact outside_of_head (by decide)
  rcases seen.of_advance none (by decide) with ⟨rfl, rfl⟩ | ⟨_, ⟨⟩, _⟩
  exact outside_of_flushes rfl

theorem oneLine_lines :
    ReachesEof .arm .start (ascii "a" ++ [newline]) ∧
      ∀ calls, none ∈ outputs (doScrubNextChar .arm) calls .start (ascii "a" ++ [newline]) →
        ((outputs (doScrubNextChar .arm) calls .start (ascii "a" ++ [newline])).count (some newline)
            = newlines (ascii "a" ++ [newline])
          ↔ (∀ after rest, Seen .arm .start (ascii "a" ++ [newline]) after rest → loses .arm after rest = false)
            ∧ ∀ after rest, Seen .arm .start (ascii "a" ++ [newline]) after rest → Owes after rest →
              ∃ later left, Seen .arm after rest later left ∧ Pays later left) :=
  doScrubNextChar_lines_iff .arm (ascii "a") oneLine_outside

theorem comment_outside (after : Context) (rest : Text) (seen : Seen .arm .start (ascii "/*\n*/@\n") after rest) :
    ¬ EndsInside after rest := by
  rcases seen.of_advance (some (⟨.lineStart, false, .lineStart, .literal [], [], 1⟩, ascii " @\n")) (by decide) with
    ⟨rfl, rfl⟩ | ⟨_, ⟨⟩, seen⟩
  · rintro (⟨_, none⟩ | ⟨_, body, is, opened⟩)
    · cases none
    · cases is
      revert opened
      decide
  rcases seen.of_advance (some (⟨.lineStart, false, .lineStart, .literal [], [], 1⟩, ascii "@\n")) (by decide) with
    ⟨rfl, rfl⟩ | ⟨_, ⟨⟩, seen⟩
  · exact outside_of_head (by decide)
  rcases seen.of_advance (some (⟨.lineStart, false, .lineStart, .literal [], [], 1⟩, [])) (by decide) with
    ⟨rfl, rfl⟩ | ⟨_, ⟨⟩, seen⟩
  · exact outside_of_head (by decide)
  rcases seen.of_advance none (by decide) with ⟨rfl, rfl⟩ | ⟨_, ⟨⟩, _⟩
  exact outside_of_flushes rfl

/-- **The newline of a comment is still owed at the end**: two come in and one goes out. -/
theorem comment_loses_line :
    ¬ ∀ (target : Target) (body : Text),
      (∀ after rest, Seen target .start (body ++ [newline]) after rest → ¬ EndsInside after rest) →
      ∀ calls, none ∈ outputs (doScrubNextChar target) calls .start (body ++ [newline]) →
        (outputs (doScrubNextChar target) calls .start (body ++ [newline])).count (some newline)
          = newlines (body ++ [newline]) := by
  intro all
  have same := all .arm (ascii "/*\n*/@") comment_outside 2 (by decide)
  revert same
  decide

end Cctools.Scrub
