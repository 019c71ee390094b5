import PocketCalculator.Console
import PocketCalculator.Proofs.Session.Presses

/-! # What a console shows of its session

A console keeps a screen beside its session and replaces it after every key that was pressed.  A
name that no key has takes SHIFT back and replaces nothing, so the screen then shows a SHIFT that is
off (`Console.run_loses_shift`).  Nothing else of the screen is ever out of date: a whole
conversation is told by its sessions and by whether such a SHIFT is shown (`Console.run_seen`). -/

namespace PocketCalculator

/-! ### The names of a line -/

/-- The names of a line up to and including the first one that no key has. -/
def upToUnknown : List Text → List Text
  | [] => []
  | name :: names =>
    match Key.ofName? name with
    | some _ => name :: upToUnknown names
    | none => [name]

/-- What is said about the first name that no key has. -/
def complaint (names : List Text) : List Output :=
  match names.find? fun name => (Key.ofName? name).isNone with
  | some name => [.printLine (Console.unknownKeyText name)]
  | none => []

section names

variable {name : Text} {k : Key}

theorem upToUnknown_of_some (hk : Key.ofName? name = some k) (names : List Text) :
    upToUnknown (name :: names) = name :: upToUnknown names := by
  simp only [upToUnknown, hk]

theorem upToUnknown_of_none (hk : Key.ofName? name = none) (names : List Text) :
    upToUnknown (name :: names) = [name] := by
  simp only [upToUnknown, hk]

theorem complaint_of_some (hk : Key.ofName? name = some k) (names : List Text) :
    complaint (name :: names) = complaint names := by
  simp [complaint, hk]

theorem complaint_of_none (hk : Key.ofName? name = none) (names : List Text) :
    complaint (name :: names) = [.printLine (Console.unknownKeyText name)] := by
  simp [complaint, hk]

end names

/-- The session after the key of a name, unless its result cannot be shown. -/
def Session.pressedNamed (p : Profile) (s : Session) (name : Text) : Except FormatFault Session :=
  match s.pressNamed p name with
  | (_, some (.display fault)) => .error fault
  | (s, _) => .ok s

/-! ### What is seen -/

/-- A session, and whether a SHIFT is shown that a name without a key has taken back. -/
structure Seen where
  session : Session
  lost : Bool

namespace Seen

/-- The picture of the session, with the SHIFT that was taken back. -/
def screen (v : Seen) : Screen :=
  { v.session.screen with shift := v.session.shift || v.lost }

/-- The console that shows this. -/
def console (v : Seen) : Console :=
  ⟨v.session, v.screen⟩

/-- What is seen after a name: a key is shown as it is, and a name that no key has hides that SHIFT
is off now. -/
def pressedNamed (p : Profile) (v : Seen) (name : Text) : Except FormatFault Seen := do
  let s ← v.session.pressedNamed p name
  match Key.ofName? name with
  | some _ => return ⟨s, false⟩
  | none => return ⟨s, v.session.shift || v.lost⟩

/-- What is seen after a line of names. -/
def typedLine (p : Profile) (v : Seen) (names : List Text) : Except FormatFault Seen :=
  (upToUnknown names).foldlM (pressedNamed p) v

/-- The answer to a line.  What is copied is that of the session. -/
def answer (w : Surroundings) (v : Seen) (line : Text) :
    Except FormatFault (Option Seen × List Output) :=
  match Console.Command.ofLine? line.strip with
  | some .quit => .ok (none, [])
  | some .copy =>
    .ok (some v, Console.copyOutputs w.clipboard (Console.copyText v.session.screen))
  | some .settings => do
    let settings ← Settings.orFault w.profile.settings
    let listing ← (settingsListing settings.rows w.descriptions).mapError .noSettings
    return (some v, [.printLine listing])
  | none => do
    let v ← v.typedLine w.profile line.words
    return (some v, complaint line.words ++ [.printLine v.screen.render])

/-- The answers to all lines. -/
def converse (w : Surroundings) (v : Seen) : List Text → Except FormatFault (Seen × List Output)
  | [] => .ok (v, [.print Console.prompt])
  | line :: lines => do
    match ← v.answer w line with
    | (none, said) => return (v, .print Console.prompt :: said)
    | (some v', said) =>
      let (last, more) ← converse w v' lines
      return (last, .print Console.prompt :: said ++ more)

/-! ### One line -/

variable {p : Profile} {v : Seen} {name : Text}

/-- A key press is seen as it is. -/
theorem pressedNamed_of_some {k : Key} (hk : Key.ofName? name = some k) :
    v.pressedNamed p name =
      match (v.session.press p k).2 with
      | none => .ok ⟨(v.session.press p k).1, false⟩
      | some fault => .error fault := by
  unfold pressedNamed Session.pressedNamed Session.pressNamed
  simp only [hk]
  cases (v.session.press p k).2 with
  | none => rfl
  | some fault => rfl

theorem pressedNamed_of_none (hk : Key.ofName? name = none) :
    v.pressedNamed p name = .ok ⟨v.session.unshifted, v.session.shift || v.lost⟩ := by
  unfold pressedNamed Session.pressedNamed Session.pressNamed
  simp only [hk]
  rfl

theorem screen_of_fresh (s : Session) : screen ⟨s, false⟩ = s.screen := by
  simp only [screen, Bool.or_false]
  rfl

theorem screen_of_unshifted (v : Seen) :
    screen ⟨v.session.unshifted, v.session.shift || v.lost⟩ = v.screen := by
  simp only [screen, Session.unshifted, Bool.false_or]
  rfl

theorem pressAll_console (p : Profile) (v : Seen) (names : List Text) :
    v.console.pressAll p names = (v.typedLine p names).map fun v' => (v'.console, complaint names) := by
  induction names generalizing v with
  | nil => rfl
  | cons name names ih =>
      unfold typedLine
      cases hk : Key.ofName? name with
      | none =>
          have hp : v.console.session.pressNamed p name =
              (v.session.unshifted, some (.unknownKey name)) := by
            simp only [Session.pressNamed, console, hk]
            rfl
          simp only [Console.pressAll, hp]
          rw [upToUnknown_of_none hk, complaint_of_none hk, List.foldlM_cons,
            pressedNamed_of_none hk]
          show Except.ok (Console.mk v.session.unshifted v.screen, _) = Except.ok _
          rw [← screen_of_unshifted v]
          rfl
      | some k =>
          rw [upToUnknown_of_some hk, complaint_of_some hk, List.foldlM_cons,
            pressedNamed_of_some hk]
          cases hf : (v.session.press p k).2 with
          | none =>
              have hp : v.console.session.pressNamed p name = ((v.session.press p k).1, none) := by
                simp only [Session.pressNamed, console, hk, hf, Option.map_none]
              simp only [Console.pressAll, hp]
              rw [← screen_of_fresh]
              exact ih ⟨(v.session.press p k).1, false⟩
          | some fault =>
              have hp : v.console.session.pressNamed p name =
                  ((v.session.press p k).1, some (.display fault)) := by
                simp only [Session.pressNamed, console, hk, hf, Option.map_some]
              simp only [Console.pressAll, hp]
              rfl

/-- The session after a line is that of its keys, pressed up to the first name that no key has. -/
theorem session_typedLine (p : Profile) (v : Seen) (names : List Text) :
    (v.typedLine p names).map session =
      (upToUnknown names).foldlM (Session.pressedNamed p) v.session := by
  unfold typedLine
  generalize upToUnknown names = line
  induction line generalizing v with
  | nil => rfl
  | cons name line ih =>
      rw [List.foldlM_cons, List.foldlM_cons, pressedNamed]
      cases v.session.pressedNamed p name with
      | error fault => rfl
      | ok s =>
          cases Key.ofName? name with
          | none => exact ih ⟨s, v.session.shift || v.lost⟩
          | some k => exact ih ⟨s, false⟩

theorem answer_console (w : Surroundings) (v : Seen) (line : Text) :
    v.console.answer w line = (v.answer w line).map fun a => (a.1.map console, a.2) := by
  unfold Console.answer answer
  cases Console.Command.ofLine? line.strip with
  | some command =>
      cases command with
      | quit => rfl
      | copy => rfl
      | settings =>
          cases Settings.orFault w.profile.settings with
          | error fault => rfl
          | ok settings =>
              simp only [bind, Except.bind]
              cases (settingsListing settings.rows w.descriptions).mapError FormatFault.noSettings with
              | error fault => rfl
              | ok listing => rfl
  | none =>
      simp only [pressAll_console]
      cases v.typedLine w.profile line.words with
      | error fault => rfl
      | ok v' => rfl

/-! ### The conversation -/

theorem converse_console (w : Surroundings) (v : Seen) (lines : List Text) :
    v.console.converse w lines = (v.converse w lines).map fun a => (a.1.console, a.2) := by
  induction lines generalizing v with
  | nil => rfl
  | cons line lines ih =>
      unfold Console.converse converse
      rw [answer_console]
      cases v.answer w line with
      | error fault => rfl
      | ok a =>
          obtain ⟨next, said⟩ := a
          cases next with
          | none => rfl
          | some v' =>
              show Except.bind (v'.console.converse w lines) _ =
                Except.map _ (Except.bind (v'.converse w lines) _)
              rw [ih]
              cases v'.converse w lines with
              | error fault => rfl
              | ok b => rfl

end Seen

namespace Console

/-- A conversation is told by its sessions, each the one before it after the keys of a line up to
the first name that no key has, and by whether a SHIFT is shown that such a name has taken back. -/
theorem run_seen (w : Surroundings) (s : Session) (input : Text) :
    run w s input =
        (Seen.converse w ⟨s, false⟩ input.lines).map
          (fun a => (a.1.console, .printLine s.screen.render :: a.2)) ∧
      ∀ v : Seen, ∀ names, (v.typedLine w.profile names).map Seen.session =
        (upToUnknown names).foldlM (Session.pressedNamed w.profile) v.session := by
  refine ⟨?_, fun v names => Seen.session_typedLine w.profile v names⟩
  have hc : ofSession s = Seen.console ⟨s, false⟩ := by
    rw [ofSession, Seen.console, Seen.screen_of_fresh]
  have hg : greeting (ofSession s) = [.printLine s.screen.render] := rfl
  simp only [run, hg]
  rw [hc, Seen.converse_console]
  cases Seen.converse w ⟨s, false⟩ input.lines with
  | error fault => rfl
  | ok a => rfl

/-- After SHIFT and a name that no key has, SHIFT is off and shown. -/
theorem run_loses_shift :
    let p : Profile := ⟨.standard, .ok Settings.defaults⟩
    let input := "SHIFT bogus\n".toList
    (run ⟨p, none, true⟩ (.start p) input).toOption.map
      (fun a => (a.1.session.shift, a.1.session.screen.shift, a.1.screen.shift)) =
      some (false, false, true) := by
  decide

end Console
end PocketCalculator
