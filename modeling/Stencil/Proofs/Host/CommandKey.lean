import Mathlib.Data.List.Basic
import Stencil.Proofs.Host.Memory

namespace Stencil

/-! The keys of commands. In the text of a key a NUL ends every argument, so the text tells lists
of arguments apart as far as no argument has a NUL in it: a NUL inside an argument looks like the
end of one. -/

namespace CommandKey

variable {arguments arguments' : List String}

/-- What stands between the NULs of an argument. -/
def stretches (argument : String) : List (List Char) := argument.toList.splitOn '\x00'

/-- No argument has a NUL in it. -/
def Unbroken (arguments : List String) : Prop := ∀ argument ∈ arguments, '\x00' ∉ argument.toList

theorem argumentsText_cons (argument : String) (arguments : List String) :
    argumentsText (argument :: arguments) = argument ++ "\x00" ++ argumentsText arguments := by
  rw [argumentsText, List.map_cons, String.join_cons, ← argumentsText]

/-- The bytes of a key are those of the arguments with a zero behind each of them. -/
theorem toUTF8_argumentsText (argument : String) (arguments : List String) :
    (argumentsText (argument :: arguments)).toUTF8 =
      argument.toUTF8 ++ "\x00".toUTF8 ++ (argumentsText arguments).toUTF8 := by
  rw [argumentsText_cons]
  simp only [String.toUTF8, String.toByteArray_append]

/-- Behind the last NUL there is nothing more. -/
theorem splitOn_argumentsText (arguments : List String) :
    (argumentsText arguments).toList.splitOn '\x00' = arguments.flatMap stretches ++ [[]] := by
  induction arguments with
  | nil => rfl
  | cons argument arguments induction =>
      have characters : (argumentsText (argument :: arguments)).toList =
          argument.toList ++ '\x00' :: (argumentsText arguments).toList := by
        simp [argumentsText_cons]
      rw [characters, List.splitOn_append_cons_self, induction, List.flatMap_cons,
        List.append_assoc, stretches]

theorem argumentsText_eq_iff :
    argumentsText arguments = argumentsText arguments' ↔
      arguments.flatMap stretches = arguments'.flatMap stretches := by
  constructor
  · intro same
    have split := congrArg (·.toList.splitOn '\x00') same
    simp only [splitOn_argumentsText] at split
    exact List.append_cancel_right split
  · intro same
    have joined (arguments : List String) :
        ['\x00'].intercalate ((argumentsText arguments).toList.splitOn '\x00') =
          (argumentsText arguments).toList :=
      List.intercalate_splitOn _
    rw [← String.toList_inj, ← joined, splitOn_argumentsText, same, ← splitOn_argumentsText, joined]

theorem flatMap_stretches (unbroken : Unbroken arguments) :
    arguments.flatMap stretches = arguments.map String.toList := by
  rw [List.map_eq_flatMap]
  exact List.flatMap_congr fun argument member =>
    List.splitOn_eq_singleton (unbroken argument member)

theorem eq_of_stretches (unbroken : Unbroken arguments) (unbroken' : Unbroken arguments')
    (same : arguments.flatMap stretches = arguments'.flatMap stretches) :
    arguments = arguments' := by
  rw [flatMap_stretches unbroken, flatMap_stretches unbroken'] at same
  exact List.map_injective_iff.mpr (fun _ _ => String.toList_inj.mp) same

end CommandKey

/-! ## One run -/

namespace Memory

open CommandKey

variable {σ : Type} {services : Services (StateM σ)} {memory after : Memory}
  {log log' : List (List String)} {world next : σ}

/-- Every result of a command that is known is what a command that was run gave. -/
def Recorded (services : Services (StateM σ)) (memory : Memory) (log : List (List String)) :
    Prop :=
  ∀ key output, memory.commands.lookup key = some output →
    ∃ command ∈ log, key = .ofArguments command ∧
      ∃ before behind, (services.command command).run before = (output, behind)

theorem Recorded.ask {request : Request} (recorded : memory.Recorded services log)
    (asks : ((memory.ask services.logged request).run log).run world = ((after, log'), next)) :
    after.Recorded services log' := by
  cases request with
  | environment =>
      cases asks
      exact recorded
  | file path =>
      cases found : memory.files.lookup (Path.components path) with
      | some result =>
          rw [Memory.ask, readFile, recalled_known found] at asks
          cases asks
          exact recorded
      | none =>
          rw [Memory.ask, readFile, recalled_fresh found] at asks
          cases asks
          exact recorded
  | command arguments =>
      cases found : memory.commands.lookup (.ofArguments arguments) with
      | some result =>
          rw [Memory.ask, runCommand, recalled_known found] at asks
          cases asks
          exact recorded
      | none =>
          rcases made : (services.command arguments).run world with ⟨result, behind⟩
          have ran : ((memory.ask services.logged (.command arguments)).run log).run world =
              (({ memory with commands := (.ofArguments arguments, result) :: memory.commands },
                arguments :: log), behind) := by
            simp [Memory.ask, runCommand, recalled_fresh found, Services.logged, made]
            rfl
          cases asks.symm.trans ran
          intro key output known
          rw [List.lookup_cons] at known
          split at known
          · rename_i same
            cases known
            exact ⟨arguments, List.mem_cons_self, beq_iff_eq.mp same, world, _, made⟩
          · rcases recorded key output known with ⟨command, member, rest⟩
            exact ⟨command, List.mem_cons_of_mem _ member, rest⟩

/-- The result is what the work makes of all that is known in the end. -/
theorem Recorded.complete {α : Type} {work : Answers → Except Pause α} {fuel : Nat}
    {result : Except Pause α} (recorded : memory.Recorded services log)
    (completes : ((complete services.logged work fuel memory).run log).run world =
      (((result, after), log'), next)) :
    result = work after.answers ∧ after.Recorded services log' := by
  induction fuel generalizing memory log world with
  | zero =>
      cases completes
      exact ⟨rfl, recorded⟩
  | succ fuel induction =>
      rw [Memory.complete] at completes
      split at completes
      · rename_i request _
        rcases asked : ((memory.ask services.logged request).run log).run world with
          ⟨⟨middle, log''⟩, behind⟩
        rw [StateT.run_bind, StateT.run_bind, asked] at completes
        exact induction (recorded.ask asked) completes
      · cases completes
        exact ⟨rfl, recorded⟩

/-- Two commands have the same key if and only if their arguments have the same stretches between
NULs; without NULs they are the same arguments. So whatever a run takes for the result of a command
is what a command that it ran gave whose arguments have the same stretches, and without NULs in
them it is the command itself. -/
theorem commands_apart (services : Services (StateM σ)) :
    (∀ arguments arguments' : List String,
      ((argumentsText arguments).toUTF8 = (argumentsText arguments').toUTF8 ↔
        arguments.flatMap stretches = arguments'.flatMap stretches) ∧
      (Unbroken arguments → Unbroken arguments' →
        (argumentsText arguments).toUTF8 = (argumentsText arguments').toUTF8 →
          arguments = arguments')) ∧
    ∀ (α : Type) (work : Answers → Except Pause α) (fuel : Nat) (world : σ),
      ∃ result after log next,
      ((complete services.logged work fuel {}).run []).run world =
          (((result, after), log), next) ∧
        result = work after.answers ∧
        ∀ arguments output, after.answers.command arguments = some output →
          ∃ command ∈ log,
            (∃ before behind, (services.command command).run before = (output, behind)) ∧
            command.flatMap stretches = arguments.flatMap stretches ∧
            (Unbroken command → Unbroken arguments → command = arguments) := by
  have bytes (arguments arguments' : List String) :
      (argumentsText arguments).toUTF8 = (argumentsText arguments').toUTF8 ↔
        arguments.flatMap stretches = arguments'.flatMap stretches :=
    String.toByteArray_inj.trans argumentsText_eq_iff
  refine ⟨fun arguments arguments' => ⟨bytes arguments arguments', ?_⟩, ?_⟩
  · intro unbroken unbroken' same
    exact eq_of_stretches unbroken unbroken' ((bytes arguments arguments').mp same)
  · intro α work fuel world
    rcases ends : ((complete services.logged work fuel {}).run []).run world with
      ⟨⟨⟨result, after⟩, log⟩, next⟩
    have start : ({} : Memory).Recorded services [] := fun _ _ known => by cases known
    rcases start.complete ends with ⟨whole, recorded⟩
    refine ⟨result, after, log, next, rfl, whole, fun arguments output known => ?_⟩
    rcases recorded _ output known with ⟨command, member, same, gave⟩
    have stretched := argumentsText_eq_iff.mp (CommandKey.arguments.inj same)
    exact ⟨command, member, gave, stretched.symm, fun unbroken unbroken' =>
      eq_of_stretches unbroken unbroken' stretched.symm⟩

/-- Where an argument ends is seen without NULs. -/
theorem commands_apart_echo :
    Unbroken ["echo", "a"] ∧ Unbroken ["echoa"] ∧
      (argumentsText ["echo", "a"]).toUTF8 ≠ (argumentsText ["echoa"]).toUTF8 := by
  have first : Unbroken ["echo", "a"] := by simp [Unbroken]
  have second : Unbroken ["echoa"] := by simp [Unbroken]
  have services : Services (StateM Unit) :=
    ⟨return [], fun _ => return .ok "", fun _ => return .ok ""⟩
  refine ⟨first, second, fun same => ?_⟩
  exact absurd (((commands_apart services).1 _ _).2 first second same) (by decide)

/-- With a NUL it is not: what is known of `echo a` is taken for the output of a single program
name with a NUL in it. -/
theorem commands_confused :
    (¬ ∀ arguments arguments' : List String,
      (argumentsText arguments).toUTF8 = (argumentsText arguments').toUTF8 →
        arguments = arguments') ∧
    ∀ output, ({ commands := [(.ofArguments ["echo", "a"], output)] } : Memory).answers.command
      ["echo\x00a"] = some output := by
  have same : argumentsText ["echo", "a"] = argumentsText ["echo\x00a"] := by decide
  constructor
  · intro apart
    exact absurd (apart ["echo", "a"] ["echo\x00a"] (congrArg String.toUTF8 same)) (by decide)
  · intro output
    change List.lookup (CommandKey.arguments (argumentsText ["echo\x00a"]))
      [(.arguments (argumentsText ["echo", "a"]), output)] = some output
    rw [same, List.lookup_cons_self]

end Memory

end Stencil
