import AssemblyLexer.Proofs.NameRoom
import AssemblyLexer.Proofs.Reachable

/-!
What calls write down in the table of a session. A turn adds a name only when it completes a
token with that name, so that a session that is used for nothing but calls has the predefined
names and behind them those of the tokens, each where it first came up.
-/

set_option autoImplicit false

namespace AssemblyLexer

namespace NameTable

/-- From one table to another with the name of a token, or without any if the token has none. -/
inductive Enters (t : NameTable) : NameTable → Option Bytes → Option Name → Prop
  | kept : Enters t t none none
  /-- What was spelled out has not become a name. -/
  | cleared : Enters t t.clearPending none none
  | named (text : Bytes) :
      Enters t (t.clearPending.add text).1 (some text) (some (t.clearPending.add text).2)

variable {t middle later : NameTable} {ledger : List Bytes} {pending text : Bytes} {text? : Option Bytes}
  {name? : Option Name}

theorem Enters.before (first : t.Enters middle none none)
    (second : middle.Enters later text? name?) : t.Enters later text? name? := by
  cases first with
  | kept => exact second
  | cleared =>
    cases second with
    | kept => exact .cleared
    | cleared => exact .cleared
    | named text => exact .named text

theorem Enters.grows (enters : t.Enters later text? name?) : t.Grows later := by
  cases enters with
  | kept => exact .refl t
  | cleared => exact t.grows_setPending []
  | named text => exact (t.grows_setPending []).trans (grows_add _ text)

namespace Represents

theorem enters (represents : t.Represents ledger pending) (enters : t.Enters later text? name?) :
    ∃ pending', later.Represents (text?.toList.foldl enter ledger) pending' := by
  have cleared := represents.setPending []
  cases enters with
  | kept => exact ⟨pending, represents⟩
  | cleared => exact ⟨[], cleared⟩
  | named text => exact ⟨[], cleared.add text⟩

end Represents

end NameTable

namespace Scanner

open NameTable (Enters)

/-- What has come of a table so far in a call, which is nothing as long as no token with a name is
complete. A name that is refused stays pending. -/
def Stage.Enters (t : NameTable) : Stage → Prop
  | .again s _ _ => t.Enters s.names none none
  | .done s _ token name? => t.Enters s.names token.name? name?
  | .refused s _ => ∃ text, t.Refuses text ∧ s.names = t.clearPending.pushPending text

variable {c : Scanner} {s : Session} {stage : Stage} {t : NameTable} {mode resume : ScannerMode}

theorem Stage.Enters.before {middle : NameTable} (first : t.Enters middle none none)
    (second : stage.Enters middle) : stage.Enters t := by
  cases stage with
  | again => exact first.before second
  | done => exact first.before second
  | refused s c =>
    obtain ⟨text, refuses, names_eq⟩ := second
    cases first with
    | kept => exact ⟨text, refuses, names_eq⟩
    | cleared => exact ⟨text, refuses, names_eq⟩

theorem enters_finish (c : Scanner) {token : Token} (enters : t.Enters s.names none none)
    (nameless : token.name? = none) : (c.finish s token none).Enters t := by
  change t.Enters s.names token.name? none
  rw [nameless]
  exact enters

theorem enters_numbered (c : Scanner) (enters : t.Enters s.names none none) (scan : NumberScan) :
    (c.numbered s resume scan).Enters t := by
  rw [numbered]
  split
  · exact c.enters_finish enters rfl
  · exact c.enters_finish enters rfl
  · exact enters
  · exact enters
  · exact enters
  · exact enters

theorem enters_number {radix : Radix} (enters : t.Enters s.names none none)
    (number_eq : c.number s resume radix = .ok stage) : stage.Enters t := by
  obtain ⟨after, _, number_eq'⟩ := c.number_spec s resume radix
  obtain rfl := Except.ok.inj (number_eq.symm.trans number_eq')
  exact enters_numbered after enters _

/-- The token has the name that was given to it. -/
theorem enters_named {begins : Bool} {text : Bytes} {name : Name}
    (enters : t.Enters s.names (some text) (some name)) (get_eq : s.names.get name = text)
    (named_eq : c.named s begins name = .ok stage) : stage.Enters t := by
  rw [named, get_eq] at named_eq
  dsimp only at named_eq
  split at named_eq
  · cases named_eq
    exact enters
  split at named_eq
  · cases named_eq
    exact enters
  split at named_eq
  · cases named_eq
  · cases named_eq
    exact enters

/-- Spelling a text out and turning it into a name is adding it, unless it is refused. -/
theorem internPending?_cases (indexed : s.names.Indexed) (text : Bytes) :
    (∃ s' name, (s.spelling text).internPending? = some (s', name) ∧
        s.names.Enters s'.names (some text) (some name) ∧ s'.names.get name = text) ∨
      (s.spelling text).internPending? = none ∧ s.names.Refuses text := by
  rw [Session.internPending?_spelling]
  by_cases refuses : s.names.Refuses text
  · exact .inr ⟨if_pos refuses, refuses⟩
  · have cleared : s.names.clearPending.Indexed := (s.names.grows_setPending []).indexed indexed
    exact .inl ⟨_, _, if_neg refuses, .named text, (cleared.names_add text).get_eq⟩

theorem enters_word (indexed : s.names.Indexed) (word_eq : c.word s mode = .ok stage) :
    stage.Enters s.names := by
  obtain ⟨after, _, spelled⟩ := spell_cleared (c := c) rfl s
  rw [word, spelled] at word_eq
  dsimp only at word_eq
  split at word_eq
  · split at word_eq
    · exact enters_number .cleared word_eq
    · cases word_eq
      exact Enters.cleared
  · rcases internPending?_cases indexed (c.rest.takeWhile Byte.isNamePart) with
      ⟨s', name, interned, enters, get_eq⟩ | ⟨none, refuses⟩
    · rw [interned] at word_eq
      exact enters_named enters get_eq word_eq
    · rw [none] at word_eq
      cases word_eq
      exact ⟨_, refuses, rfl⟩

theorem enters_parameter (indexed : s.names.Indexed) (c : Scanner) :
    (c.parameter s).Enters s.names := by
  obtain ⟨after, _, spelled⟩ := spell_cleared (c := c.advance) rfl s
  rw [parameter, spelled]
  dsimp only
  rcases internPending?_cases indexed (c.advance.rest.takeWhile Byte.isNamePart) with
    ⟨s', name, interned, enters, get_eq⟩ | ⟨none, refuses⟩
  · rw [interned]
    dsimp only
    split
    · have get_eq' : (after.report s' .emptyParameter).names.get name = _ := get_eq
      rw [get_eq']
      exact enters
    · rw [get_eq]
      exact enters
  · rw [none]
    exact ⟨_, refuses, rfl⟩

theorem enters_quoted (c : Scanner) (s : Session) (quote : Byte) :
    (c.quoted s resume quote).Enters s.names := by
  have names_eq := inside_names quote c.advance s false true [] c.advance.rest
  rw [quoted]
  generalize inside quote c.advance s false true [] c.advance.rest = found at names_eq ⊢
  obtain ⟨s', after, closed, intact, content⟩ := found
  dsimp only at names_eq ⊢
  have same : s.names.Enters s'.names none none := names_eq ▸ .kept
  split
  · exact same
  split
  · exact same
  split
  · exact after.enters_finish same rfl
  split
  · exact after.enters_finish same rfl
  · exact same

/-- A turn adds the name of the token that it completes, and nothing else. -/
theorem enters_turn (indexed : s.names.Indexed) (turn_eq : c.turn s mode = .ok stage) :
    stage.Enters s.names := by
  rw [turn] at turn_eq
  generalize mode.transition c.cursor.peek? = transition at turn_eq
  obtain ⟨action, next, starts⟩ := transition
  dsimp only at turn_eq
  generalize (if starts then c.mark else c) = base at turn_eq
  cases action with
  | take =>
    cases turn_eq
    exact Enters.kept
  | produce =>
    cases turn_eq
    exact enters_finish _ .kept rfl
  | yield =>
    cases turn_eq
    exact enters_finish _ .kept rfl
  | lineBreak =>
    cases turn_eq
    exact Enters.kept
  | endStatement =>
    cases turn_eq
    exact enters_finish _ .kept rfl
  | number => exact enters_number .kept turn_eq
  | quoted quote =>
    cases turn_eq
    exact base.enters_quoted s quote
  | word => exact enters_word indexed turn_eq
  | parameter =>
    cases turn_eq
    exact enters_parameter indexed base
  | unexpected =>
    cases turn_eq
    exact Enters.kept
  | stray =>
    cases turn_eq
    exact Enters.kept
  | endOfSource =>
    cases turn_eq
    exact enters_finish _ .kept rfl

/-- So does a call, by turns. -/
theorem Stage.Enters.steps {n : Nat} {last : Stage} (indexed : t.Indexed) (enters : stage.Enters t)
    (steps_eq : stage.steps n = .ok last) : last.Enters t := by
  induction n generalizing stage with
  | zero =>
    cases steps_eq
    exact enters
  | succ n ih =>
    rw [Stage.steps] at steps_eq
    cases stage with
    | done => exact ih enters steps_eq
    | refused => exact ih enters steps_eq
    | again s c mode =>
      have before : t.Enters s.names none none := enters
      cases turn_eq : c.turn s mode with
      | error =>
        rw [Stage.step, turn_eq] at steps_eq
        cases steps_eq
      | ok next =>
        rw [Stage.step, turn_eq] at steps_eq
        exact ih (.before before (enters_turn (before.grows.indexed indexed) turn_eq)) steps_eq

end Scanner

namespace Sharing

open NameTable (Represents enter)
open Scanner (Stage)

variable {w : Sharing} {lexers : List Lexer} {ledger : List Bytes} {pending : Bytes}

end Sharing

end AssemblyLexer
