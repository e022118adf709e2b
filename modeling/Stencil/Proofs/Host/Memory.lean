import Stencil.Host.Memory

namespace Stencil

/-! The memory of a run as a memo. Only the first call with a key makes a result, and every later
one gets the same, whatever was called for in between. -/

namespace Memory

/-- What a call asks for. Calls of different kinds have different keys. -/
inductive Key where
  | file (components : List String)
  | command (key : CommandKey)
  | expression (source : String) (path : List String)
deriving DecidableEq

inductive Reply where
  | text (result : Except Failure String)
  | expression (result : Except ParseError Expression)

/-- A call, with what makes the result if there is none. -/
inductive Call (m : Type → Type) where
  | file (path : String) (read : String → m (Except Failure String))
  | command (key : CommandKey) (run : m (Except Failure String))
  | parse (source : String) (path : List String)

section
variable {m : Type → Type} [Monad m]

namespace Call

def key : Call m → Key
  | .file path _ => .file (Path.components path)
  | .command key _ => .command key
  | .parse source path => .expression source path

def make : Call m → m Reply
  | .file path read => return .text (← read path)
  | .command _ run => return .text (← run)
  | .parse source path => return .expression (Expression.parse source path)

end Call

def perform (memory : Memory) : Call m → m (Reply × Memory)
  | .file path read => do
      let (result, memory) ← memory.readFile path read
      return (.text result, memory)
  | .command key run => do
      let (result, memory) ← memory.runCommand key run
      return (.text result, memory)
  | .parse source path => do
      let (result, memory) ← memory.parse source path
      return (.expression result, memory)

/-- Calls one after the other. -/
def performAll (memory : Memory) : List (Call m) → m (List Reply × Memory)
  | [] => return ([], memory)
  | call :: calls => do
      let (reply, memory) ← memory.perform call
      let (replies, memory) ← memory.performAll calls
      return (reply :: replies, memory)

end

/-! ## One call -/

section
variable {m : Type → Type} [Monad m] {κ ρ : Type} [BEq κ] {table : List (κ × ρ)} {key : κ}

theorem recalled_known {make : m ρ} {result : ρ} (found : table.lookup key = some result) :
    recalled table key make = return (result, table) := by
  rw [recalled, found]

theorem recalled_fresh {make : m ρ} (absent : table.lookup key = none) :
    recalled table key make = do
      let made ← make
      return (made, (key, made) :: table) := by
  rw [recalled, absent]

end

/-- What the tables have under a key. -/
def known? (memory : Memory) : Key → Option Reply
  | .file components => (memory.files.lookup components).map .text
  | .command key => (memory.commands.lookup key).map .text
  | .expression source path => (memory.expressions.lookup (source, path)).map .expression

variable {σ : Type}

/-- What a lookup does that makes what is missing: afterwards the result is under its key, and
nothing else changes. The result is what was there before, or what is made in the world. -/
structure Recalls {κ ρ : Type} [BEq κ] (table : List (κ × ρ)) (key : κ) (make : StateM σ ρ)
    (world : σ) (result : ρ) (after : List (κ × ρ)) (next : σ) : Prop where
  ends : (recalled table key make).run world = ((result, after), next)
  remembered : after.lookup key = some result
  others (other : κ) (different : other ≠ key) : after.lookup other = table.lookup other
  known (before : ρ) (found : table.lookup key = some before) : result = before ∧ next = world
  fresh (absent : table.lookup key = none) : make.run world = (result, next)

theorem exists_recalls {κ ρ : Type} [BEq κ] [LawfulBEq κ] (table : List (κ × ρ)) (key : κ)
    (make : StateM σ ρ) (world : σ) :
    ∃ result after next, Recalls table key make world result after next := by
  cases found : table.lookup key with
  | some result =>
      refine ⟨result, table, world, ?_, found, fun _ _ => rfl, ?_, ?_⟩
      · rw [recalled_known found]
        rfl
      · intro before same
        cases found.symm.trans same
        exact ⟨rfl, rfl⟩
      · intro absent
        cases found.symm.trans absent
  | none =>
      rcases made : make.run world with ⟨result, next⟩
      refine ⟨result, (key, result) :: table, next, ?_, List.lookup_cons_self, ?_, ?_,
        fun _ => made⟩
      · rw [recalled_fresh found, StateT.run_bind, made]
        rfl
      · intro other different
        rw [List.lookup_cons, beq_eq_false_iff_ne.mpr different]
      · intro before same
        cases found.symm.trans same

/-- The same for a call. -/
structure Performs (memory : Memory) (call : Call (StateM σ)) (world : σ) (reply : Reply)
    (after : Memory) (next : σ) : Prop where
  ends : (memory.perform call).run world = ((reply, after), next)
  remembered : after.known? call.key = some reply
  others (other : Key) (different : other ≠ call.key) : after.known? other = memory.known? other
  known (before : Reply) (found : memory.known? call.key = some before) :
    reply = before ∧ next = world
  fresh (absent : memory.known? call.key = none) : call.make.run world = (reply, next)

/-- A call does what the lookup in its own table does. -/
theorem Recalls.performs {κ ρ : Type} [BEq κ] {table table' : List (κ × ρ)} {key : κ}
    {make : StateM σ ρ} {world next : σ} {result : ρ} {memory after : Memory}
    {call : Call (StateM σ)} (reply : ρ → Reply)
    (recalls : Recalls table key make world result table' next)
    (ends : (memory.perform call).run world = ((reply result, after), next))
    (before : memory.known? call.key = (table.lookup key).map reply)
    (behind : after.known? call.key = (table'.lookup key).map reply)
    (others : ∀ other, other ≠ call.key → after.known? other = memory.known? other)
    (makes : call.make.run world = (reply (make.run world).1, (make.run world).2)) :
    memory.Performs call world (reply result) after next where
  ends := ends
  remembered := by rw [behind, recalls.remembered, Option.map_some]
  others := others
  known earlier found := by
    rw [before, Option.map_eq_some_iff] at found
    rcases found with ⟨known, found, rfl⟩
    rcases recalls.known known found with ⟨rfl, same⟩
    exact ⟨rfl, same⟩
  fresh absent := by
    rw [before, Option.map_eq_none_iff] at absent
    rw [makes, recalls.fresh absent]

theorem exists_performs (memory : Memory) (call : Call (StateM σ)) (world : σ) :
    ∃ reply after next, memory.Performs call world reply after next := by
  cases call with
  | file path read =>
      rcases exists_recalls memory.files (Path.components path) (read path) world with
        ⟨result, files, next, recalls⟩
      refine ⟨_, { memory with files }, next, recalls.performs .text ?_ rfl rfl ?_ rfl⟩
      · simp only [perform, readFile, StateT.run_bind, recalls.ends]
        rfl
      · intro other different
        cases other with
        | file components =>
            exact congrArg (Option.map Reply.text)
              (recalls.others components fun same => different (congrArg _ same))
        | command key | expression source path => rfl
  | command key run =>
      rcases exists_recalls memory.commands key run world with ⟨result, commands, next, recalls⟩
      refine ⟨_, { memory with commands }, next, recalls.performs .text ?_ rfl rfl ?_ rfl⟩
      · simp only [perform, runCommand, StateT.run_bind, recalls.ends]
        rfl
      · intro other different
        cases other with
        | command key =>
            exact congrArg (Option.map Reply.text)
              (recalls.others key fun same => different (congrArg _ same))
        | file components | expression source path => rfl
  | parse source path =>
      rcases exists_recalls memory.expressions (source, path)
          (return Expression.parse source path) world with ⟨result, expressions, next, recalls⟩
      refine ⟨_, { memory with expressions }, next,
        recalls.performs .expression ?_ rfl rfl ?_ rfl⟩
      · simp only [perform, parse, StateT.run_bind, recalls.ends]
        rfl
      · intro other different
        cases other with
        | expression source' path' =>
            refine congrArg (Option.map Reply.expression)
              (recalls.others (source', path') fun same => different ?_)
            cases same
            rfl
        | file components | command key => rfl

/-! ## All calls -/

/-- What a call at an index of a sequence gives, between the worlds before and after it. -/
structure Answered (memory : Memory) (calls : List (Call (StateM σ))) (replies : List Reply)
    (worlds : Nat → σ) (index : Nat) (call : Call (StateM σ)) (reply : Reply) : Prop where
  known (before : Reply) (found : memory.known? call.key = some before) :
    reply = before ∧ worlds (index + 1) = worlds index
  fresh (absent : memory.known? call.key = none)
      (first : ∀ earlier other, earlier < index → calls[earlier]? = some other →
        other.key ≠ call.key) :
    call.make.run (worlds index) = (reply, worlds (index + 1))
  repeated (earlier : Nat) (other : Call (StateM σ)) (before : earlier < index)
      (there : calls[earlier]? = some other) (same : other.key = call.key) :
    replies[earlier]? = some reply ∧ worlds (index + 1) = worlds index

theorem performAll_answered (memory : Memory) (calls : List (Call (StateM σ))) (world : σ) :
    ∃ replies after worlds,
      (memory.performAll calls).run world = ((replies, after), worlds calls.length) ∧
      worlds 0 = world ∧
      ∀ index call, calls[index]? = some call →
        ∃ reply, replies[index]? = some reply ∧
          memory.Answered calls replies worlds index call reply := by
  induction calls generalizing memory world with
  | nil => exact ⟨[], memory, fun _ => world, rfl, rfl, fun index call here => by cases here⟩
  | cons first calls induction =>
      rcases memory.exists_performs first world with ⟨reply, after, next, performs⟩
      rcases induction after next with ⟨replies, last, worlds, ends, rfl, each⟩
      refine ⟨reply :: replies, last, fun | 0 => world | index + 1 => worlds index, ?_, rfl, ?_⟩
      · have rest : ((do
            let (replies, memory) ← after.performAll calls
            return (reply :: replies, memory)) : StateM σ (List Reply × Memory)).run (worlds 0) =
              ((reply :: replies, last), worlds calls.length) := by
          simp only [StateT.run_bind, ends]
          rfl
        simp only [performAll, StateT.run_bind, performs.ends]
        exact rest
      intro index call here
      cases index with
      | zero =>
          cases here
          exact ⟨reply, rfl, {
            known := performs.known
            fresh := fun absent _ => performs.fresh absent
            repeated := fun _ _ before => absurd before (Nat.not_lt_zero _) }⟩
      | succ index =>
          rcases each index call here with ⟨reply', there, answered⟩
          refine ⟨reply', there, ?_, ?_, ?_⟩
          · intro before found
            by_cases same : call.key = first.key
            · rw [same] at found
              rcases performs.known before found with ⟨rfl, _⟩
              exact answered.known reply (same ▸ performs.remembered)
            · exact answered.known before ((performs.others call.key same).trans found)
          · intro absent first'
            have different : call.key ≠ first.key := fun same =>
              first' 0 first (Nat.succ_pos index) rfl same.symm
            exact answered.fresh ((performs.others call.key different).trans absent)
              fun earlier other before => first' (earlier + 1) other (Nat.succ_lt_succ before)
          · intro earlier other before there' same
            cases earlier with
            | zero =>
                cases there'
                rcases answered.known reply (same ▸ performs.remembered) with ⟨rfl, quiet⟩
                exact ⟨rfl, quiet⟩
            | succ earlier =>
                exact answered.repeated earlier other (Nat.lt_of_succ_lt_succ before) there' same

/-- An expression is always what the parser makes of its source at its place. -/
theorem Answered.parsed {calls : List (Call (StateM σ))} {replies : List Reply} {worlds : Nat → σ}
    (each : ∀ index call, calls[index]? = some call →
      ∃ reply, replies[index]? = some reply ∧
        ({} : Memory).Answered calls replies worlds index call reply)
    {source : String} {path : List String} (index : Nat)
    (here : calls[index]? = some (.parse source path)) :
    replies[index]? = some (.expression (Expression.parse source path)) := by
  induction index using Nat.strongRecOn with
  | ind index induction =>
      rcases each index _ here with ⟨reply, there, answered⟩
      by_cases first : ∃ earlier other, earlier < index ∧ calls[earlier]? = some other ∧
          other.key = .expression source path
      · rcases first with ⟨earlier, other, before, held, same⟩
        have equal : other = .parse source path := by
          cases other with
          | parse source' path' =>
              cases same
              rfl
          | file path read | command key run => cases same
        rw [equal] at held
        rw [there, ← induction earlier before held]
        exact (answered.repeated earlier _ before held rfl).1.symm
      · have made := answered.fresh rfl fun earlier other before held same =>
          first ⟨earlier, other, before, held, same⟩
        have same : Reply.expression (Expression.parse source path) = reply :=
          congrArg Prod.fst made
        rw [there, same]

end Memory

/-! ## One run -/

/-- The services with a list of the commands that they ran. -/
def Services.logged {m : Type → Type} [Monad m] (services : Services m) :
    Services (StateT (List (List String)) m) where
  environment := services.environment
  file path := services.file path
  command arguments := do
    modify (arguments :: ·)
    services.command arguments

namespace Memory

variable {σ : Type}

/-- The commands that were run have distinct keys, and the memory knows what came of them. -/
structure Logged (memory : Memory) (log : List (List String)) : Prop where
  distinct : (log.map CommandKey.ofArguments).Nodup
  known : ∀ arguments ∈ log, (memory.commands.lookup (.ofArguments arguments)).isSome

/-- A question is asked of the outside only if its answer is not known. -/
theorem Logged.ask {memory : Memory} {log : List (List String)} (logged : memory.Logged log)
    (services : Services (StateM σ)) (request : Request) (world : σ) :
    ∃ after log' next,
      ((memory.ask services.logged request).run log).run world = ((after, log'), next) ∧
        after.Logged log' := by
  cases request with
  | environment => exact ⟨_, _, _, rfl, logged.distinct, logged.known⟩
  | file path =>
      cases found : memory.files.lookup (Path.components path) with
      | some result =>
          refine ⟨memory, log, world, ?_, logged⟩
          rw [Memory.ask, readFile, recalled_known found]
          rfl
      | none =>
          rcases made : (services.file path).run world with ⟨result, next⟩
          refine ⟨{ memory with files := (Path.components path, result) :: memory.files }, log,
            next, ?_, logged.distinct, logged.known⟩
          simp [Memory.ask, readFile, recalled_fresh found, Services.logged, made]
          rfl
  | command arguments =>
      cases found : memory.commands.lookup (.ofArguments arguments) with
      | some result =>
          refine ⟨memory, log, world, ?_, logged⟩
          rw [Memory.ask, runCommand, recalled_known found]
          rfl
      | none =>
          rcases made : (services.command arguments).run world with ⟨result, next⟩
          refine ⟨{ memory with commands := (.ofArguments arguments, result) :: memory.commands },
            arguments :: log, next, ?_, ?_, ?_⟩
          · simp [Memory.ask, runCommand, recalled_fresh found, Services.logged, made]
            rfl
          · rw [List.map_cons, List.nodup_cons]
            refine ⟨fun member => ?_, logged.distinct⟩
            rcases List.mem_map.mp member with ⟨earlier, ran, same⟩
            have known := logged.known earlier ran
            rw [same, found] at known
            cases known
          · refine List.forall_mem_cons.mpr ⟨by rw [List.lookup_cons_self]; rfl, ?_⟩
            intro other ran
            rw [List.lookup_cons]
            split
            · rfl
            · exact logged.known other ran

theorem Logged.complete {α : Type} {memory : Memory} {log : List (List String)}
    (logged : memory.Logged log) (services : Services (StateM σ)) (work : Answers → Except Pause α)
    (fuel : Nat) (world : σ) :
    ∃ result after log' next,
      ((complete services.logged work fuel memory).run log).run world =
          (((result, after), log'), next) ∧
        after.Logged log' := by
  induction fuel generalizing memory log world with
  | zero => exact ⟨_, memory, log, world, rfl, logged⟩
  | succ fuel induction =>
      rw [Memory.complete]
      split
      · rename_i request _
        rcases logged.ask services request world with ⟨after, log', next, asks, logged'⟩
        rcases induction logged' next with ⟨result, last, log'', ends, completes, logged''⟩
        refine ⟨result, last, log'', ends, ?_, logged''⟩
        rw [StateT.run_bind, StateT.run_bind, asks]
        exact completes
      · exact ⟨_, memory, log, world, rfl, logged⟩

/-- The memory of a run is a memo. In every sequence of calls, whatever makes their results, a call
makes its result if no call before it had an equal key, and then in the world that the calls before
it left; otherwise the world stays, and the reply is that of every call before with an equal key, be
it a failure. A source that is read gives what the parser makes of it. So no work that asks through
such a memory, be it a resolution or a cascade, runs two commands with equal keys. -/
theorem calls_coherent :
    (∀ (calls : List (Call (StateM σ))) (world : σ),
      ∃ (replies : List Reply) (after : Memory) (worlds : Nat → σ),
      (performAll {} calls).run world = ((replies, after), worlds calls.length) ∧
      worlds 0 = world ∧
      ∀ (index : Nat) (call : Call (StateM σ)), calls[index]? = some call →
        ∃ reply : Reply, replies[index]? = some reply ∧
        ((∀ earlier other, earlier < index → calls[earlier]? = some other → other.key ≠ call.key) →
          call.make.run (worlds index) = (reply, worlds (index + 1))) ∧
        (∀ earlier other, earlier < index → calls[earlier]? = some other → other.key = call.key →
          replies[earlier]? = some reply ∧ worlds (index + 1) = worlds index) ∧
        ∀ source path, call = .parse source path →
          reply = .expression (Expression.parse source path)) ∧
    ∀ (α : Type) (services : Services (StateM σ)) (work : Answers → Except Pause α) (fuel : Nat)
        (world : σ), ∃ result after log next,
      ((complete services.logged work fuel {}).run []).run world =
          (((result, after), log), next) ∧
        (log.map CommandKey.ofArguments).Nodup := by
  constructor
  · intro calls world
    rcases performAll_answered {} calls world with ⟨replies, after, worlds, ends, start, each⟩
    refine ⟨replies, after, worlds, ends, start, fun index call here => ?_⟩
    rcases each index call here with ⟨reply, there, answered⟩
    have unknown : ({} : Memory).known? call.key = none := by
      cases call.key <;> rfl
    refine ⟨reply, there, answered.fresh unknown, answered.repeated, ?_⟩
    rintro source path rfl
    have parsed := Answered.parsed each index here
    rw [there] at parsed
    exact Option.some.inj parsed
  · intro α services work fuel world
    have start : ({} : Memory).Logged [] :=
      ⟨List.nodup_nil, fun _ impossible => by cases impossible⟩
    rcases start.complete services work fuel world with ⟨result, after, log, next, ends, logged⟩
    exact ⟨result, after, log, next, ends, logged.distinct⟩

/-- A call that counts how often it makes its result. -/
def failing (failure : Failure) : StateM Nat (Except Failure String) := do
  modify (· + 1)
  return .error failure

/-! The file that fails is asked for once, although its path is written in two ways. The command
has the same text as its key, and is run all the same. -/

example : ((performAll {} [.file "a//b" fun path => failing (.reported path),
    .command (.label "a/b") (failing .noCommand),
    .file "a/b" fun path => failing (.reported path)]).run 0).2 = 2 := by decide +kernel

end Memory

end Stencil
