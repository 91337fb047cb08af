import ScriptMachine.Proofs.Image.Loading
import ScriptMachine.Host

namespace ScriptMachine

open Machine (Run Limits)

namespace Host

inductive Operation where
  | loadTree (tree : List Stmt)
  | loadFile (path : Text)
  | save (path : Text)
  | call (function : Text) (heap : Heap) (args : List Value)
  | listing

inductive Reply where
  | loaded (success : Except ReadError Bool)
  | saved (result : Except Image.WriteError Bool)
  | called (result : Except HostError Run)
  | listed (result : Except UnknownOpcode Text)

/-- One operation in the surroundings as they are: the reply, the host after it and the surroundings
that it leaves. A call that has not come to its end has no reply. -/
def perform (h : Host) (env : Surroundings) (time : Text) (fuel : Nat) :
    Operation → Option (Reply × Host × Surroundings)
  | .loadTree tree =>
    let (success, h, env) := h.loadTree env time tree
    some (.loaded (.ok success), h, env)
  | .loadFile path =>
    match h.loadFile env time path with
    | .error e => some (.loaded (.error e), h, env)
    | .ok (success, h, env) => some (.loaded (.ok success), h, env)
  | .save path =>
    match h.save env path with
    | .error e => some (.saved (.error e), h, env)
    | .ok (success, env) => some (.saved (.ok success), h, env)
  | .call function heap args =>
    match h.call env time fuel function heap args with
    | .error e => some (.called (.error e), h, env)
    | .ok (.unfinished _, _) => none
    | .ok (r, env) => some (.called (.ok r), h, env)
  | .listing => some (.listed h.listing, h, env)

/-- An operation that is over. -/
structure Event where
  operation : Operation
  before : Surroundings
  reply : Reply
  after : Surroundings

/-- From the host `h` the operations of `events` lead to another one. Between two operations the
surroundings may change in any way. -/
inductive History (h : Host) : List Event → Host → Prop
  | nil : History h [] h
  | snoc {h' h'' : Host} {events : List Event} {e : Event} {time : Text} {fuel : Nat} :
      History h events h' →
      h'.perform e.before time fuel e.operation = some (e.reply, h'', e.after) →
      History h (events ++ [e]) h''

/-- What a load comes to: a program or the message of an error, unless the reading is broken off. -/
abbrev Load := Except ReadError (Except Text Program)

def Load.program? (load : Load) : Option Program := load.toOption.bind Except.toOption

def Load.message? : Load → Option Text
  | .ok (.ok _) => none
  | .ok (.error message) => some message
  | .error e => some e.message

def Event.load? (options : Compile.Options) (e : Event) : Option Load :=
  match e.operation with
  | .loadTree tree => some (.ok ((compile options tree).mapError (·.message)))
  | .loadFile path =>
    some ((Image.load e.before.files path).map fun read => read.mapError (·.message))
  | _ => none

/-- The program of the last load that succeeded. -/
def currentProgram (loads : List Load) : Option Program := (loads.filterMap Load.program?).getLast?

/-- The message of the last load, if it failed. -/
def currentError (loads : List Load) : Text := (loads.getLast?.bind Load.message?).getD []

/-- A machine for one call: its globals are all unset, and it finds the surroundings and the objects
of the arguments as they are. -/
def machineFor (p : Program) (limits : Limits) (env : Surroundings) (heap : Heap) : Machine where
  program := p
  limits := limits
  world := {
    heap := heap
    globals := Array.replicate p.globals.size none
    input := env.input
    files := env.files }

/-- What calling a function of a program comes to, however long it takes. -/
inductive Answers (limits : Limits) (env : Surroundings) (function : Text) (heap : Heap)
    (args : List Value) : Option Program → Except HostError Run → Prop
  | noProgram : Answers limits env function heap args none (.error .noProgram)
  | unknown {p : Program} {e : LookupError} : p.findFunction function = .error e →
      Answers limits env function heap args (some p) (.error (.lookup e))
  | ended {p : Program} {index fuel : Nat} {r : Run} : p.findFunction function = .ok index →
      (machineFor p limits env heap).invoke fuel index args = .ok r →
      (∀ s, r ≠ .unfinished s) → Answers limits env function heap args (some p) (.ok r)

variable {h h' : Host} {env env' : Surroundings} {time function : Text} {fuel : Nat} {heap : Heap}
  {args : List Value} {result other : Except HostError Run} {reply : Reply}
  {program : Option Program} {limits : Limits} {options : Compile.Options} {events : List Event}
  {e : Event}

theorem Answers.unique (hr : Answers limits env function heap args program result)
    (ho : Answers limits env function heap args program other) : result = other := by
  cases hr with
  | noProgram =>
    cases ho
    rfl
  | unknown hf =>
    cases ho with
    | unknown hf' => rw [Except.error.inj (hf.symm.trans hf')]
    | ended hf' => simp [hf] at hf'
  | @ended p index fuel r hf hrun hended =>
    cases ho with
    | unknown hf' => simp [hf] at hf'
    | @ended _ index' fuel' r' hf' hrun' hended' =>
      cases Except.ok.inj (hf.symm.trans hf')
      have hsame := Machine.invoke_of_ended hrun hended (Nat.le_add_right fuel fuel')
      rw [Machine.invoke_of_ended hrun' hended' (Nat.le_add_left fuel' fuel)] at hsame
      cases hsame
      rfl

theorem invoke_ne_error {m : Machine} {index : Nat} {e : LookupError}
    (hf : m.program.findFunction function = .ok index) : m.invoke fuel index args ≠ .error e := by
  intro herror
  have hlt : index < m.program.functions.size := by
    unfold Program.findFunction at hf
    split at hf
    · next hfind =>
      cases hf
      exact (Array.findIdx?_eq_some_iff_getElem.1 hfind).1
    · cases hf
  simp only [Machine.invoke, Array.getElem?_eq_getElem hlt] at herror
  split at herror <;> cases herror

/-- The surroundings that an execution leaves. -/
def leaves (env : Surroundings) (time function : Text) : Run → Option Surroundings
  | .finished f => some (conclude env time function f)
  | .stuck => some env
  | .unfinished _ => none

theorem perform_call {p : Program} {index : Nat} {r : Run} (hp : h.program = some p)
    (hf : p.findFunction function = .ok index)
    (hrun : (machineFor p h.limits env heap).invoke fuel index args = .ok r) :
    h.perform env time fuel (.call function heap args) =
      (leaves env time function r).map fun env' => (.called (.ok r), h, env') := by
  have hcreate : { Machine.create p h.limits env.input env.files with
      world := { (Machine.create p h.limits env.input env.files).world with heap } } =
        machineFor p h.limits env heap := rfl
  unfold perform
  cases r <;> simp only [call, prepare, hp, hf, bind, Except.bind, hcreate, hrun, leaves,
    Option.map_some, Option.map_none]

theorem perform_noProgram (hp : h.program = none) :
    h.perform env time fuel (.call function heap args) =
      some (.called (.error .noProgram), h, env) := by
  unfold perform
  simp only [call, prepare, hp]
  rfl

theorem perform_unknown {p : Program} {e : LookupError} (hp : h.program = some p)
    (hf : p.findFunction function = .error e) :
    h.perform env time fuel (.call function heap args) =
      some (.called (.error (.lookup e)), h, env) := by
  unfold perform
  simp only [call, prepare, hp, hf]
  rfl

theorem answers_of_perform
    (hperform : h.perform env time fuel (.call function heap args) = some (reply, h', env')) :
    h' = h ∧ ∃ result, reply = .called result ∧
      Answers h.limits env function heap args h.program result := by
  cases hp : h.program with
  | none =>
    rw [perform_noProgram hp] at hperform
    cases hperform
    exact ⟨rfl, _, rfl, .noProgram⟩
  | some p =>
    cases hf : p.findFunction function with
    | error e =>
      rw [perform_unknown hp hf] at hperform
      cases hperform
      exact ⟨rfl, _, rfl, .unknown hf⟩
    | ok index =>
      cases hrun : (machineFor p h.limits env heap).invoke fuel index args with
      | error e => exact absurd hrun (invoke_ne_error hf)
      | ok r =>
        rw [perform_call hp hf hrun, Option.map_eq_some_iff] at hperform
        obtain ⟨_, hleaves, hreply⟩ := hperform
        cases hreply
        refine ⟨rfl, _, rfl, .ended hf hrun ?_⟩
        intro s hs
        simp [hs, leaves] at hleaves

theorem perform_of_answers (ha : Answers h.limits env function heap args h.program result)
    (time : Text) : ∃ fuel env', h.perform env time fuel (.call function heap args) =
      some (.called result, h, env') := by
  cases hp : h.program with
  | none =>
    rw [hp] at ha
    cases ha
    exact ⟨0, env, perform_noProgram hp⟩
  | some p =>
    rw [hp] at ha
    cases ha with
    | unknown hf => exact ⟨0, env, perform_unknown hp hf⟩
    | @ended _ index fuel r hf hrun hended =>
      refine ⟨fuel, ?_⟩
      rw [perform_call hp hf hrun]
      cases r with
      | finished f => exact ⟨_, rfl⟩
      | stuck => exact ⟨_, rfl⟩
      | unfinished s => exact absurd rfl (hended s)

theorem load_eq_error_iff {files : Storage} {path : Text} {err : ReadError} :
    Image.load files path = .error err ↔ files.isDirectory path := by
  by_cases hdirectory : files.isDirectory path
  · rw [Image.load, Storage.open?_of_isDirectory hdirectory]
    exact iff_of_true rfl hdirectory
  · refine iff_of_false (fun hload => ?_) hdirectory
    unfold Image.load at hload
    split at hload
    · cases hload
    · next source hopen =>
      obtain ⟨image, rfl⟩ := Storage.content_of_open? hdirectory hopen
      cases hload

theorem load?_eq_error_iff {err : ReadError} : e.load? options = some (.error err) ↔
    ∃ path, e.operation = .loadFile path ∧ e.before.files.isDirectory path := by
  obtain ⟨operation, env, reply, env'⟩ := e
  cases operation with
  | loadFile path =>
    simp only [Event.load?, Option.some.injEq, Operation.loadFile.injEq, exists_eq_left']
    rw [← @load_eq_error_iff _ _ err]
    cases Image.load env.files path <;> simp [Except.map]
  | loadTree | save | call | listing => simp [Event.load?]

/-- The host after a load; one that was broken off leaves no message behind. -/
def settle (h : Host) : Load → Host
  | .ok (.ok p) => h.accept p
  | .ok (.error message) => h.reject message
  | .error _ => h

theorem perform_loadFile (h : Host) (env : Surroundings) (time : Text) (fuel : Nat) (path : Text) :
    ∃ reply h' env', h.perform env time fuel (.loadFile path) = some (reply, h', env') := by
  unfold perform
  dsimp only
  split
  · exact ⟨_, _, _, rfl⟩
  · exact ⟨_, _, _, rfl⟩

theorem perform_load {load : Load} (hload : e.load? h.options = some load)
    (hperform : h.perform e.before time fuel e.operation = some (e.reply, h', e.after)) :
    h' = h.settle load ∧ e.reply = .loaded (load.map Except.isOk) := by
  obtain ⟨operation, env, reply, env'⟩ := e
  cases operation with
  | loadTree tree =>
    cases hload
    unfold perform at hperform
    simp only [loadTree] at hperform
    cases hc : compile h.options tree <;> rw [hc] at hperform <;> cases hperform
    · exact ⟨rfl, rfl⟩
    · exact ⟨rfl, rfl⟩
  | loadFile path =>
    cases hload
    unfold perform at hperform
    simp only [loadFile] at hperform
    cases hc : Image.load env.files path with
    | error broken =>
      rw [hc] at hperform
      cases hperform
      exact ⟨rfl, rfl⟩
    | ok read =>
      rw [hc] at hperform
      cases read <;> cases hperform
      · exact ⟨rfl, rfl⟩
      · exact ⟨rfl, rfl⟩
  | save | call | listing => cases hload

/-- Whatever is no load leaves the host alone, also when it fails. -/
theorem perform_other (hload : e.load? h.options = none)
    (hperform : h.perform e.before time fuel e.operation = some (e.reply, h', e.after)) :
    h' = h := by
  obtain ⟨operation, env, reply, env'⟩ := e
  cases operation with
  | loadTree | loadFile => cases hload
  | save path =>
    unfold perform at hperform
    dsimp only at hperform
    split at hperform <;> cases hperform <;> rfl
  | call function heap args => exact (answers_of_perform hperform).1
  | listing =>
    cases hperform
    rfl

/-- What the host knows is what the loads so far have left. -/
structure Knows (limits : Limits) (options : Compile.Options) (loads : List Load) (h : Host) :
    Prop where
  limits : h.limits = limits
  options : h.options = options
  program : h.program = currentProgram loads
  lastError : h.lastError = currentError (loads.filter Except.isOk)

theorem Knows.settle {loads : List Load} (hk : Knows limits options loads h) (load : Load) :
    Knows limits options (loads ++ [load]) (h.settle load) := by
  match load with
  | .ok (.ok p) =>
    refine ⟨hk.limits, hk.options, ?_, ?_⟩
    · simp [Host.settle, accept, currentProgram, Load.program?, Except.toOption]
    · simp [Host.settle, accept, currentError, Load.message?, Except.isOk, Except.toBool]
  | .ok (.error message) =>
    refine ⟨hk.limits, hk.options, ?_, ?_⟩
    · simpa [Host.settle, reject, currentProgram, Load.program?, Except.toOption] using hk.program
    · simp [Host.settle, reject, currentError, Load.message?, Except.isOk, Except.toBool]
  | .error broken =>
    refine ⟨hk.limits, hk.options, ?_, ?_⟩
    · simpa [Host.settle, currentProgram, Load.program?, Except.toOption] using hk.program
    · simpa [Host.settle, Except.isOk, Except.toBool] using hk.lastError

theorem currentError_filter {loads : List Load}
    (hlast : ∀ load, loads.getLast? = some load → load.isOk) :
    currentError (loads.filter Except.isOk) = currentError loads := by
  obtain rfl | ⟨before, last, rfl⟩ := List.eq_nil_or_concat loads
  · rfl
  · have hok : last.isOk := hlast last (by simp)
    simp [currentError, hok]

theorem Knows.perform (hk : Knows limits options (events.filterMap (Event.load? options)) h)
    (hperform : h.perform e.before time fuel e.operation = some (e.reply, h', e.after)) :
    Knows limits options ((events ++ [e]).filterMap (Event.load? options)) h' := by
  rw [List.filterMap_append]
  cases hload : e.load? options with
  | none =>
    rw [perform_other (hk.options ▸ hload) hperform]
    simpa [hload] using hk
  | some load =>
    rw [(perform_load (hk.options ▸ hload) hperform).1]
    simpa [hload] using hk.settle load

theorem knows_of_history (hh : History { limits, options } events h) :
    Knows limits options (events.filterMap (Event.load? options)) h := by
  induction hh with
  | nil => exact ⟨rfl, rfl, rfl, rfl⟩
  | snoc _ hperform ih => exact ih.perform hperform

theorem History.split {before after : List Event} (hh : History h events h')
    (hevents : events = before ++ e :: after) :
    ∃ h₁ h₂ time fuel, History h before h₁ ∧
      h₁.perform e.before time fuel e.operation = some (e.reply, h₂, e.after) := by
  induction hh generalizing after with
  | nil => simp at hevents
  | @snoc h₁ h₂ events last time fuel hh hperform ih =>
    obtain rfl | ⟨rest, last', rfl⟩ := List.eq_nil_or_concat after
    · obtain ⟨rfl, hlast⟩ := List.append_inj' hevents rfl
      cases hlast
      exact ⟨h₁, h₂, time, fuel, hh, hperform⟩
    · rw [List.concat_eq_append, ← List.cons_append, ← List.append_assoc] at hevents
      exact ih (List.append_inj' hevents rfl).1

/-- After any history of a new host, its program is that of the last load that succeeded, and its
error is the message of the last load that was not broken off, if that one failed. So it is the
message of the last load whenever that one was not broken off, and only the reading of a directory
is. Each load says whether it succeeded. Each call is answered by an execution on a machine of its
own, and it is answered if that execution ends. -/
theorem history_determined (hh : History { limits, options } events h) :
    h.program = currentProgram (events.filterMap (Event.load? options)) ∧
      h.lastError = currentError ((events.filterMap (Event.load? options)).filter Except.isOk) ∧
      ((∀ load, (events.filterMap (Event.load? options)).getLast? = some load → load.isOk) →
        h.lastError = currentError (events.filterMap (Event.load? options))) ∧
      (∀ before e after, events = before ++ e :: after →
        (∀ load, e.load? options = some load → e.reply = .loaded (load.map Except.isOk)) ∧
        (∀ err, e.load? options = some (.error err) ↔
          ∃ path, e.operation = .loadFile path ∧ e.before.files.isDirectory path) ∧
        ∀ function heap args, e.operation = .call function heap args →
          ∀ result, e.reply = .called result ↔
            Answers limits e.before function heap args
              (currentProgram (before.filterMap (Event.load? options))) result) ∧
      ∀ env time function heap args result,
        Answers limits env function heap args
          (currentProgram (events.filterMap (Event.load? options))) result →
        ∃ fuel env', h.perform env time fuel (.call function heap args) =
          some (.called result, h, env') := by
  have hk := knows_of_history hh
  refine ⟨hk.program, hk.lastError, fun hlast => ?_, ?_, ?_⟩
  · rw [hk.lastError, currentError_filter hlast]
  · intro before e after hevents
    obtain ⟨h₁, h₂, time, fuel, hbefore, hperform⟩ := hh.split hevents
    have hk₁ := knows_of_history hbefore
    refine ⟨?_, fun err => load?_eq_error_iff, ?_⟩
    · intro load hload
      exact (perform_load (hk₁.options ▸ hload) hperform).2
    · intro function heap args hop result
      rw [hop] at hperform
      obtain ⟨-, answer, hreply, hanswer⟩ := answers_of_perform hperform
      rw [hk₁.limits, hk₁.program] at hanswer
      constructor
      · intro hresult
        cases hreply.symm.trans hresult
        exact hanswer
      · intro hother
        rw [hreply, hanswer.unique hother]
  · intro env time function heap args result hanswer
    rw [← hk.program, ← hk.limits] at hanswer
    exact perform_of_answers hanswer time

def Reply.outcome? : Reply → Option Machine.Outcome
  | called (.ok (.finished f)) => some f.outcome
  | _ => none

/-- The main program sets a variable, which the function reads. -/
def setting : List Stmt :=
  [.mk 1 (.set [0x78] (.boolean true)),
   .mk 2 (.function [0x66] [] [.mk 3 (.ret (some (.identifier [0x78])))])]

/-- A load fails, another succeeds, a call sets a global, and a further call finds it unset. -/
theorem history_determined_setting : ∃ e₁ e₂ e₃ e₄ h error, History {} [e₁, e₂, e₃, e₄] h ∧
    e₁.operation = .loadTree [.mk 1 (.exit .skip)] ∧ e₂.operation = .loadTree setting ∧
    e₃.operation = .call mainName {} [] ∧ e₄.operation = .call [0x66] {} [] ∧
    e₃.reply.outcome? = some (.returned .nil) ∧ e₄.reply.outcome? = some (.failed error) ∧
    e₁.reply = .loaded (.ok false) ∧ h.program = (compile {} setting).toOption ∧ h.lastError = [] := by
  let load₁ := Host.loadTree {} {} [] [.mk 1 (.exit .skip)]
  let load₂ := load₁.2.1.loadTree {} [] setting
  obtain ⟨e, he⟩ : ∃ e, compile {} [.mk 1 (.exit .skip)] = .error e := by
    have hfails : (compile {} [.mk 1 (.exit .skip)]).isOk = false := by decide +kernel
    cases hc : compile {} [.mk 1 (.exit .skip)] with
    | error e => exact ⟨e, rfl⟩
    | ok p => simp [hc, Except.isOk, Except.toBool] at hfails
  obtain ⟨p, hp⟩ : ∃ p, compile {} setting = .ok p := by
    have hsucceeds : (compile {} setting).isOk = true := by decide +kernel
    cases hc : compile {} setting with
    | error e => simp [hc, Except.isOk, Except.toBool] at hsucceeds
    | ok p => exact ⟨p, rfl⟩
  have hmain : ((load₂.2.1.perform {} [] 10 (.call mainName {} [])).bind (·.1.outcome?)) =
      some (.returned .nil) := by decide +kernel
  have hf : ((load₂.2.1.perform {} [] 10 (.call [0x66] {} [])).bind (·.1.outcome?)).any
      (· matches .failed _) := by decide +kernel
  obtain ⟨⟨reply₃, h₃, env₃⟩, hperform₃, hreply₃⟩ := Option.bind_eq_some_iff.1 hmain
  obtain ⟨outcome, houtcome, herror⟩ := (Option.any_eq_true _ _).1 hf
  obtain ⟨⟨reply₄, h₄, env₄⟩, hperform₄, hreply₄⟩ := Option.bind_eq_some_iff.1 houtcome
  obtain ⟨rfl, -⟩ := answers_of_perform hperform₃
  cases outcome with
  | returned v => cases herror
  | failed error =>
    let e₁ : Event := ⟨.loadTree [.mk 1 (.exit .skip)], {}, .loaded (.ok load₁.1), load₁.2.2⟩
    let e₂ : Event := ⟨.loadTree setting, {}, .loaded (.ok load₂.1), load₂.2.2⟩
    let e₃ : Event := ⟨.call mainName {} [], {}, reply₃, env₃⟩
    let e₄ : Event := ⟨.call [0x66] {} [], {}, reply₄, env₄⟩
    have hperform₁ : Host.perform {} {} [] 0 e₁.operation =
        some (e₁.reply, load₁.2.1, e₁.after) := rfl
    have hperform₂ : load₁.2.1.perform {} [] 0 e₂.operation =
        some (e₂.reply, load₂.2.1, e₂.after) := rfl
    have hh : History {} [e₁, e₂, e₃, e₄] h₄ :=
      (((History.nil.snoc hperform₁).snoc hperform₂).snoc hperform₃).snoc hperform₄
    obtain ⟨hprogram, -, herror, hreplies, -⟩ := history_determined hh
    have hload₁ : e₁.load? {} = some (.ok (.error e.message)) := by
      simp only [Event.load?, e₁, he]
      rfl
    have hloads : [e₁, e₂, e₃, e₄].filterMap (Event.load? {}) =
        [.ok (.error e.message), .ok (.ok p)] := by
      have hload₂ : e₂.load? {} = some (.ok (.ok p)) := by
        simp only [Event.load?, e₂, hp]
        rfl
      rw [List.filterMap_cons_some hload₁, List.filterMap_cons_some hload₂]
      rfl
    rw [hloads] at hprogram herror
    refine ⟨e₁, e₂, e₃, e₄, h₄, error, hh, rfl, rfl, rfl, rfl, hreply₃, hreply₄, ?_, ?_, ?_⟩
    · exact (hreplies [] e₁ [e₂, e₃, e₄] rfl).1 (.ok (.error e.message)) hload₁
    · rw [hprogram, hp]
      rfl
    · rw [herror (by simp [Except.isOk, Except.toBool])]
      rfl

/-- The message of the first load is still there after the second, which failed as well. -/
theorem lastError_stale : ∃ e₁ e₂ h, History {} [e₁, e₂] h ∧
    e₁.operation = .loadFile "missing" ∧ e₂.operation = .loadFile "." ∧
    e₁.reply = .loaded (.ok false) ∧ e₂.reply = .loaded (.error .isDirectory) ∧
    h.lastError = "Failed to open bytecode file: missing" ∧
    h.lastError ≠ currentError ([e₁, e₂].filterMap (Event.load? {})) := by
  have hmissing : Image.load {} "missing" = .ok (.error (.file "missing")) := by
    have hopen : (Storage.open? {} "missing").isNone := by decide +kernel
    rw [Image.load, Option.isNone_iff_eq_none.1 hopen]
  have hbroken : Image.load {} "." = .error .isDirectory :=
    load_eq_error_iff.2 (by decide +kernel)
  obtain ⟨reply₁, h₁, env₁, hperform₁⟩ := perform_loadFile {} {} [] 0 "missing"
  obtain ⟨reply₂, h₂, env₂, hperform₂⟩ := perform_loadFile h₁ {} [] 0 "."
  let e₁ : Event := ⟨.loadFile "missing", {}, reply₁, env₁⟩
  let e₂ : Event := ⟨.loadFile ".", {}, reply₂, env₂⟩
  have hload₁ (options : Compile.Options) :
      e₁.load? options = some (.ok (.error (LoadError.file "missing").message)) := by
    simp only [Event.load?, e₁, hmissing]
    rfl
  have hload₂ (options : Compile.Options) : e₂.load? options = some (.error .isDirectory) := by
    simp only [Event.load?, e₂, hbroken]
    rfl
  obtain ⟨rfl, hreply₁⟩ := perform_load (e := e₁) (hload₁ _) hperform₁
  obtain ⟨rfl, hreply₂⟩ := perform_load (e := e₂) (hload₂ _) hperform₂
  refine ⟨e₁, e₂, _, (History.nil.snoc hperform₁).snoc hperform₂, rfl, rfl, hreply₁, hreply₂, ?_, ?_⟩
  · decide +kernel
  · rw [List.filterMap_cons_some (hload₁ _), List.filterMap_cons_some (hload₂ _)]
    decide +kernel

end Host
end ScriptMachine
