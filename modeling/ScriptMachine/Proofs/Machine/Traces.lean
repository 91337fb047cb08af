import Mathlib.Data.List.Forall2
import ScriptMachine.Proofs.Machine.Delivery

namespace ScriptMachine
namespace Machine

def traceEntry (p : Program) (frame : Frame) : TraceFrame where
  function := (p.functions.getD frame.function default).name
  instruction := frame.ip - 1
  file := p.sourceFile
  line := p.lineAt (frame.ip - 1)

/-- Calls that lead from the function at `index` to the one of the first entry. Each entry but the
first stands at a call of the function that the entry before it names. -/
inductive CallChain (p : Program) (index : Nat) : Nat → List TraceFrame → Prop
  | entry {f : Function} {x : TraceFrame} : p.functions[index]? = some f → x.function = f.name →
      CallChain p index index [x]
  | call {callee caller : Nat} {f : Function} {ins : Instruction} {x y : TraceFrame}
      {rest : List TraceFrame} : p.functions[callee]? = some f → x.function = f.name →
      p.code[y.instruction]? = some ins → ins.op? = some .call → ins.a.toNat = callee →
      CallChain p index caller (y :: rest) → CallChain p index callee (x :: y :: rest)

/-- The trace of an error that the instruction of `s` raises, when `index` is the function that the
execution began with. -/
structure Genuine (p : Program) (index : Nat) (s : State) (trace : List TraceFrame) : Prop where
  /-- There is one entry for each frame, innermost first. -/
  frames : List.Forall₂
    (fun x frame => ∃ f, p.functions[frame.function]? = some f ∧ x.function = f.name) trace s.frames
  /-- The first entry tells the instruction that raised the error. -/
  instruction : trace.head?.map TraceFrame.instruction = some s.frame.ip
  chain : CallChain p index s.frame.function trace
  places : ∀ x ∈ trace, x.file = p.sourceFile ∧ x.line = p.lineAt x.instruction

/-- Frames, innermost first, each of which the next one has called. -/
inductive Linked (p : Program) (index : Nat) : List Frame → Prop
  | entry {frame : Frame} : frame.function = index → index < p.functions.size →
      Linked p index [frame]
  | call {callee caller : Frame} {rest : List Frame} {ins : Instruction} :
      callee.function < p.functions.size → p.code[caller.ip - 1]? = some ins →
      ins.op? = some .call → ins.a.toNat = callee.function → Linked p index (caller :: rest) →
      Linked p index (callee :: caller :: rest)

section linked

variable {p : Program} {limits : Limits} {index : Nat} {s s' t : State}

theorem Linked.function_lt {frame : Frame} {rest : List Frame}
    (h : Linked p index (frame :: rest)) : frame.function < p.functions.size := by
  cases h with
  | entry hfunction hindex => exact hfunction ▸ hindex
  | call hfunction => exact hfunction

theorem Linked.congr {frame frame' : Frame} {rest : List Frame} (h : Linked p index (frame :: rest))
    (hfunction : frame'.function = frame.function) : Linked p index (frame' :: rest) := by
  cases h with
  | entry hentry hindex => exact .entry (hfunction.trans hentry) hindex
  | call hlt hcode hop hcallee hrest =>
    exact .call (hfunction ▸ hlt) hcode hop (hcallee.trans hfunction.symm) hrest

theorem Linked.of_suffix {frames : List Frame} {frame : Frame} {rest : List Frame}
    (h : Linked p index frames) (hs : frame :: rest <:+ frames) :
    Linked p index (frame :: rest) := by
  induction h with
  | entry hfunction hindex =>
    rcases List.suffix_cons_iff.1 hs with heq | hnil
    · rw [heq]
      exact .entry hfunction hindex
    · cases List.suffix_nil.1 hnil
  | call hlt hcode hop hcallee hrest ih =>
    rcases List.suffix_cons_iff.1 hs with heq | hs
    · rw [heq]
      exact .call hlt hcode hop hcallee hrest
    · exact ih hs

theorem Linked.frameIn (h : Linked p index s.frames) (hframe : FrameIn s' s) :
    Linked p index s'.frames := by
  obtain ⟨frame, hs, hfunction, -⟩ := hframe
  exact (h.of_suffix hs).congr hfunction.symm

theorem Linked.called (h : Linked p index s.frames) (hcalled : Called p s s') :
    Linked p index s'.frames := by
  obtain ⟨ins, hcode, hop, hfunction⟩ := hcalled.code
  have hframes : s'.frames =
      s'.frame :: { s.frame with ip := s.frame.ip + 1 } :: s.callers.toList.reverse := by
    simp [State.frames, hcalled.callers]
  rw [hframes]
  exact .call hcalled.function hcode hop hfunction.symm (h.congr rfl)

theorem Delivered.frameIn {e : ScriptError} (h : Delivered s e (.next s')) : FrameIn s' s := by
  cases h with
  | caught hframe => exact hframe
  | waits hframe => exact hframe

/-- The step lemma of the chain of calls. -/
theorem Linked.next (h : Linked p index s.frames) (hstep : step p limits s = some (.next s')) :
    Linked p index s'.frames := by
  rcases raised_or_kept hstep with ⟨t, e, -, -, -, hdelivered⟩ | ⟨-, hframe | hcalled⟩
  · exact h.frameIn hdelivered.frameIn
  · exact h.frameIn hframe
  · exact h.called hcalled

theorem function_traceEntry {frame : Frame} (h : frame.function < p.functions.size) :
    ∃ f, p.functions[frame.function]? = some f ∧ (traceEntry p frame).function = f.name :=
  ⟨p.functions[frame.function], Array.getElem?_eq_getElem h, by simp [traceEntry, h]⟩

theorem callChain_of_linked {frame : Frame} {rest : List Frame}
    (h : Linked p index (frame :: rest)) :
    CallChain p index frame.function ((frame :: rest).map (traceEntry p)) := by
  induction rest generalizing frame with
  | nil =>
    obtain ⟨f, hf, hname⟩ := function_traceEntry h.function_lt
    cases h with
    | entry hfunction _ =>
      subst hfunction
      exact .entry hf hname
  | cons caller rest ih =>
    obtain ⟨f, hf, hname⟩ := function_traceEntry h.function_lt
    cases h with
    | call _ hcode hop hcallee hrest => exact .call hf hname hcode hop hcallee (ih hrest)

theorem forall₂_traceEntry {frames : List Frame} (h : Linked p index frames) :
    List.Forall₂ (fun x frame => ∃ f, p.functions[frame.function]? = some f ∧ x.function = f.name)
      (frames.map (traceEntry p)) frames := by
  induction h with
  | entry hfunction hindex => exact .cons (function_traceEntry (hfunction ▸ hindex)) .nil
  | call hlt _ _ _ _ ih => exact .cons (function_traceEntry hlt) ih

theorem genuine_trace (h : Linked p index s.frames) (hamid : Amid s t) :
    Genuine p index s (trace p t) := by
  have hframes : t.frames = t.frame :: s.callers.toList.reverse := by
    rw [State.frames, hamid.callers]
  have hfunction : t.frame.function = s.frame.function := by rw [hamid.frame]
  have hlinked : Linked p index (t.frame :: s.callers.toList.reverse) := h.congr hfunction
  have htrace : trace p t = (t.frame :: s.callers.toList.reverse).map (traceEntry p) := by
    rw [← hframes]
    rfl
  rw [htrace]
  refine ⟨?_, ?_, ?_, ?_⟩
  · have hall := forall₂_traceEntry hlinked
    cases hall with
    | cons hfirst hrest =>
      rw [hfunction] at hfirst
      exact .cons hfirst hrest
  · simp [traceEntry, hamid.frame]
  · rw [← hfunction]
    exact callChain_of_linked hlinked
  · intro x hx
    obtain ⟨frame, -, rfl⟩ := List.mem_map.1 hx
    exact ⟨rfl, rfl⟩

end linked

/-- Where an error is kept between two steps. -/
inductive Holder where
  | object (r : Ref)
  /-- A completion that waits for the end of a finally block. -/
  | waiting (i : Nat)

namespace Holder

def Holds (s : State) (e : ScriptError) : Holder → Prop
  | object r => s.world.heap.errors[r]? = some e
  | waiting i => ∃ position, s.pending[i]? = some ⟨position, .rethrow e⟩

/-- The instruction of `s` raises the error that is kept here: it throws the object, or it ends the
finally block that the completion waits for. -/
def Departs (p : Program) (s : State) : Holder → Prop
  | object r => s.op? p = some .throw ∧ s.stack.back? = some (.error r)
  | waiting i => s.op? p = some .endFinally ∧ s.pending.size = i + 1 ∧
      (s.pending.back?).map Pending.frame = some s.depth

/-- An error that the step from `s` to `s'` has raised is kept here: a handler has got it as a new
object, or a finally block has been started before it goes on. -/
def Arrives (s s' : State) : Holder → Prop
  | object r => s.world.heap.errors.size = r ∧ s'.world.heap.errors.size = r + 1
  | waiting i => s'.world.heap.errors.size = s.world.heap.errors.size ∧ s'.pending.size = i + 1

end Holder

/-- How an error stays or goes on in the step from `s` to `s'`. -/
inductive Moves (p : Program) (s s' : State) : Holder → Holder → Prop
  | object {r : Ref} : Moves p s s' (.object r) (.object r)
  | waiting {i : Nat} : s'.pending[i]? = s.pending[i]? → Moves p s s' (.waiting i) (.waiting i)
  | raised {h h' : Holder} : h.Departs p s → h'.Arrives s s' → Moves p s s' h h'

/-- The way of an error through an execution, from where it is kept after `n` instructions. -/
inductive Journey (p : Program) (reaches : Nat → State → Prop) (n : Nat) (h : Holder) :
    Nat → Holder → Prop
  | here : Journey p reaches n h n h
  | next {m : Nat} {s s' : State} {h₁ h₂ : Holder} : Journey p reaches n h m h₁ → reaches m s →
      reaches (m + 1) s' → Moves p s s' h₁ h₂ → Journey p reaches n h (m + 1) h₂

/-- The instruction of `s` raises an error that has no trace, and the error gets its trace. -/
def Captured (p : Program) (limits : Limits) (index : Nat) (s : State) (e : ScriptError) : Prop :=
  ∃ e₀, Raised p limits s e₀ ∧ e₀.trace = [] ∧ e = { e₀ with trace := e.trace } ∧
    Genuine p index s e.trace

section steps

variable {p : Program} {limits : Limits} {index : Nat} {s s' t : State} {e e₀ : ScriptError}
  {h h' : Holder} {result : Progress}

theorem traced_of_trace (h : e.trace ≠ []) : traced p t e = e := by
  unfold traced
  rw [if_neg (by simpa using h)]

theorem traced_of_nil (h : e.trace = []) : traced p t e = { e with trace := trace p t } := by
  unfold traced
  rw [if_pos (by simp [h])]

theorem delivered_of_trace (hraised : Raised p limits s e) (htrace : e.trace ≠ [])
    (hstep : step p limits s = some result) : Delivered s e result := by
  obtain ⟨t, hamid, hraise⟩ := hraised
  have hdelivered := hamid.delivered (hraise.symm.trans hstep)
  rwa [traced_of_trace htrace] at hdelivered

theorem captured_of_nil (hlinked : Linked p index s.frames) (hamid : Amid s t)
    (hraise : step p limits s = raise p t e₀) (htrace : e₀.trace = []) :
    Captured p limits index s (traced p t e₀) := by
  rw [traced_of_nil htrace]
  exact ⟨e₀, ⟨t, hamid, hraise⟩, htrace, rfl, genuine_trace hlinked hamid⟩

theorem raised_of_departs (hdeparts : h.Departs p s) (hholds : h.Holds s e) :
    Raised p limits s e := by
  cases h with
  | object r =>
    obtain ⟨hop, hback⟩ := hdeparts
    obtain ⟨ins, hcode, hdecoded⟩ := Option.bind_eq_some_iff.1 hop
    have hobject : s.world.heap.error r = e := by
      have hget : s.world.heap.errors[r]? = some e := hholds
      simp [Heap.error, hget]
    refine ⟨{ s.fetched .throw with stack := s.stack.pop }, ⟨rfl, rfl, rfl, Trimmed.refl _, rfl⟩,
      ?_⟩
    have hback' : (s.fetched .throw).stack.back? = some (.error r) := hback
    simp only [step_of_code hcode hdecoded, execute, throw, State.pop?, hback',
      Option.bind_eq_bind, Option.bind_some]
    rw [← hobject]
    rfl
  | waiting i =>
    obtain ⟨hop, hsize, hframe⟩ := hdeparts
    obtain ⟨position, hget⟩ := hholds
    obtain ⟨ins, hcode, hdecoded⟩ := Option.bind_eq_some_iff.1 hop
    have hback : s.pending.back? = some ⟨position, .rethrow e⟩ := by
      rw [Array.back?_eq_getElem?, hsize, Nat.add_sub_cancel, hget]
    have hposition : position = s.depth := by simpa [hback] using hframe
    refine ⟨{ s.fetched .endFinally with pending := s.pending.pop },
      ⟨rfl, rfl, rfl, trimmed_pop _, rfl⟩, ?_⟩
    have hback' : (s.fetched .endFinally).pending.back? = some ⟨position, .rethrow e⟩ := hback
    have hdepth : (s.fetched .endFinally).depth = s.depth := rfl
    simp only [step_of_code hcode hdecoded, execute, endFinally, hback', hposition, hdepth, ne_eq,
      not_true_eq_false, if_false]
    rfl

theorem departs_of_source (hsource : Source p s e) (htrace : e.trace ≠ []) :
    ∃ h : Holder, h.Departs p s ∧ h.Holds s e := by
  cases hsource with
  | made hnil => exact absurd hnil htrace
  | @thrown r hop hback hobject =>
    refine ⟨.object r, ⟨hop, hback⟩, ?_⟩
    show s.world.heap.errors[r]? = some e
    cases hget : s.world.heap.errors[r]? with
    | some e' => simpa [Heap.error, hget] using hobject
    | none =>
      have hdefault : default = e := by simpa [Heap.error, hget] using hobject
      exact absurd (congrArg ScriptError.trace hdefault.symm) htrace
  | resumed hop hback =>
    have hpos : 0 < s.pending.size := by
      rw [Array.back?_eq_getElem?] at hback
      have := (Array.getElem?_eq_some_iff.1 hback).1
      omega
    refine ⟨.waiting (s.pending.size - 1), ⟨hop, by omega, by simp [hback]⟩, s.depth, ?_⟩
    rw [← Array.back?_eq_getElem?, hback]

theorem holds_of_arrives (hdelivered : Delivered s e (.next s')) (harrives : h'.Arrives s s') :
    h'.Holds s' e := by
  cases hdelivered with
  | caught _ _ hheap _ =>
    have herrors : s'.world.heap.errors = s.world.heap.errors.push e := by rw [hheap]; rfl
    cases h' with
    | object r =>
      show s'.world.heap.errors[r]? = some e
      rw [herrors, ← harrives.1, Array.getElem?_push_size]
    | waiting i =>
      have hsize := harrives.1
      rw [herrors, Array.size_push] at hsize
      omega
  | waits _ _ hheap hpending =>
    cases h' with
    | object r =>
      have hsize := harrives.2
      rw [hheap, harrives.1] at hsize
      omega
    | waiting i =>
      have hsize := harrives.2
      rw [hpending, Array.size_push] at hsize
      obtain rfl : _ = i := Nat.succ.inj hsize
      exact ⟨s'.depth, by rw [hpending, Array.getElem?_push_size]⟩

theorem object_stays {r : Ref} (hstep : step p limits s = some (.next s'))
    (hobject : s.world.heap.errors[r]? = some e) : s'.world.heap.errors[r]? = some e := by
  have hlt := (Array.getElem?_eq_some_iff.1 hobject).1
  rcases raised_or_kept hstep with ⟨t, e₀, -, -, -, hdelivered⟩ | ⟨hkeeps, -⟩
  · cases hdelivered with
    | caught _ _ hheap _ =>
      rw [hheap]
      show (s.world.heap.errors.push _)[r]? = some e
      rw [Array.getElem?_push, if_neg (Nat.ne_of_lt hlt), hobject]
    | waits _ _ hheap _ => rw [hheap, hobject]
  · obtain ⟨made, herrors, -⟩ := hkeeps.objects
    rw [herrors, Array.getElem?_append_left hlt, hobject]

/-- The step lemma forward: an error stays the same wherever it goes. -/
theorem holds_of_moves (hstep : step p limits s = some (.next s')) (hmoves : Moves p s s' h h')
    (hholds : h.Holds s e) (htrace : e.trace ≠ []) : h'.Holds s' e := by
  cases hmoves with
  | object => exact object_stays hstep hholds
  | waiting hsame =>
    obtain ⟨position, hget⟩ := hholds
    exact ⟨position, hsame.trans hget⟩
  | raised hdeparts harrives =>
    exact holds_of_arrives
      (delivered_of_trace (raised_of_departs hdeparts hholds) htrace hstep) harrives

theorem moves_of_rethrows {i : Nat} (hrethrows : Rethrows s.pending s'.pending)
    (hwaits : Holder.Holds s' e (.waiting i)) :
    ∃ h : Holder, h.Holds s e ∧ Moves p s s' h (.waiting i) := by
  obtain ⟨position, hget⟩ := hwaits
  have hbefore := hrethrows i position e hget
  exact ⟨.waiting i, ⟨position, hbefore⟩, .waiting (hget.trans hbefore.symm)⟩

theorem moves_or_arrives (hdelivered : Delivered s e₀ (.next s')) (hholds : h'.Holds s' e) :
    (∃ h : Holder, h.Holds s e ∧ Moves p s s' h h') ∨ h'.Arrives s s' ∧ e₀ = e := by
  cases hdelivered with
  | caught _ htrimmed hheap _ =>
    have herrors : s'.world.heap.errors = s.world.heap.errors.push e₀ := by
      rw [hheap]
      rfl
    cases h' with
    | object r =>
      have hget : s'.world.heap.errors[r]? = some e := hholds
      rw [herrors, Array.getElem?_push] at hget
      split at hget
      · next hr => exact .inr ⟨⟨hr.symm, by rw [herrors, Array.size_push, hr]⟩,
          Option.some.inj hget⟩
      · exact .inl ⟨.object r, hget, .object⟩
    | waiting i => exact .inl (moves_of_rethrows htrimmed.rethrows hholds)
  | waits _ htrimmed hheap hpending =>
    cases h' with
    | object r =>
      have hget : s'.world.heap.errors[r]? = some e := hholds
      rw [hheap] at hget
      exact .inl ⟨.object r, hget, .object⟩
    | waiting i =>
      obtain ⟨position, hget⟩ := hholds
      rw [hpending, Array.getElem?_push] at hget
      split at hget
      · next hi =>
        have hrethrow := congrArg Pending.completion (Option.some.inj hget)
        exact .inr ⟨⟨by rw [hheap], by rw [hpending, Array.size_push, hi]⟩,
          Completion.rethrow.inj hrethrow⟩
      · next hi =>
        have hbefore := htrimmed.rethrows i position e hget
        have hsame : s'.pending[i]? = s.pending[i]? := by
          rw [hpending, Array.getElem?_push, if_neg hi, hget, hbefore]
        exact .inl ⟨.waiting i, ⟨position, hbefore⟩, .waiting hsame⟩

/-- Where the error comes from that is kept after a step: it was kept before, or it has been
captured. -/
theorem moves_or_captured (hlinked : Linked p index s.frames)
    (hstep : step p limits s = some (.next s')) (hholds : h'.Holds s' e) (htrace : e.trace ≠ []) :
    (∃ h : Holder, h.Holds s e ∧ Moves p s s' h h') ∨
      Captured p limits index s e ∧ h'.Arrives s s' := by
  rcases raised_or_kept hstep with ⟨t, e₀, hamid, hsource, hraise, hdelivered⟩ | ⟨hkeeps, -⟩
  · rcases moves_or_arrives hdelivered hholds with hkept | ⟨harrives, heq⟩
    · exact .inl hkept
    · -- the error that was raised is new if it has no trace, and else it was kept somewhere
      by_cases hnil : e₀.trace = []
      · exact .inr ⟨heq ▸ captured_of_nil hlinked hamid hraise hnil, harrives⟩
      · obtain ⟨h, hdeparts, hkept⟩ := departs_of_source hsource hnil
        rw [traced_of_trace hnil] at heq
        exact .inl ⟨h, heq ▸ hkept, .raised hdeparts harrives⟩
  · cases h' with
    | object r =>
      have hget : s'.world.heap.errors[r]? = some e := hholds
      obtain ⟨made, herrors, hmade⟩ := hkeeps.objects
      rw [herrors, Array.getElem?_append] at hget
      split at hget
      · exact .inl ⟨.object r, hget, .object⟩
      · exact absurd (hmade e (Array.mem_of_getElem? hget)) htrace
    | waiting i => exact .inl (moves_of_rethrows hkeeps.pending hholds)

theorem departs_or_captured {f : Finished} (hlinked : Linked p index s.frames)
    (hstep : step p limits s = some (.done f)) (hfailed : f.outcome = .failed e) :
    (∃ h : Holder, h.Holds s e ∧ h.Departs p s ∧ e.trace ≠ []) ∨ Captured p limits index s e := by
  obtain ⟨t, e₀, hamid, hsource, hraise, rfl⟩ := raised_of_failed hstep hfailed
  by_cases hnil : e₀.trace = []
  · exact .inr (captured_of_nil hlinked hamid hraise hnil)
  · obtain ⟨h, hdeparts, hkept⟩ := departs_of_source hsource hnil
    rw [traced_of_trace hnil]
    exact .inl ⟨h, hkept, hdeparts, hnil⟩

end steps

/-- Where the error has come from that is kept in a place after `n` instructions: an instruction of
the execution has raised it without a trace, or it was the error of an object when the execution
began. -/
inductive Comes (p : Program) (limits : Limits) (index : Nat) (reaches : Nat → State → Prop)
    (e : ScriptError) (n : Nat) (h : Holder) : Prop
  | captured {k : Nat} {s s' : State} {h₀ : Holder} : reaches k s → reaches (k + 1) s' →
      Captured p limits index s e → h₀.Arrives s s' → Journey p reaches (k + 1) h₀ n h →
      Comes p limits index reaches e n h
  | before {s : State} {r : Ref} : reaches 0 s → Holder.Holds s e (.object r) →
      Journey p reaches 0 (.object r) n h → Comes p limits index reaches e n h

theorem Comes.next {p : Program} {limits : Limits} {index : Nat} {reaches : Nat → State → Prop}
    {e : ScriptError} {n : Nat} {s s' : State} {h h' : Holder}
    (hcomes : Comes p limits index reaches e n h) (hs : reaches n s) (hs' : reaches (n + 1) s')
    (hmoves : Moves p s s' h h') :
    Comes p limits index reaches e (n + 1) h' := by
  cases hcomes with
  | captured hk hk' hcaptured harrives hjourney =>
    exact .captured hk hk' hcaptured harrives (hjourney.next hs hs' hmoves)
  | before hzero hholds hjourney => exact .before hzero hholds (hjourney.next hs hs' hmoves)

/-- How the errors of an execution keep their traces, where `reaches n s` says that `s` is the state
after `n` instructions and `index` is the function that the execution began with. -/
structure TraceDiscipline (p : Program) (limits : Limits) (index : Nat)
    (reaches : Nat → State → Prop) : Prop where
  /-- An error without a trace gets the chain of open calls when it is raised. -/
  captures {n : Nat} {s : State} {e : ScriptError} : reaches n s → Raised p limits s e →
    e.trace = [] → ∃ trace, Genuine p index s trace ∧
      ∀ result, step p limits s = some result → Delivered s { e with trace } result
  /-- An error with a trace goes on with it. -/
  passes {s : State} {e : ScriptError} {result : Progress} : Raised p limits s e → e.trace ≠ [] →
    step p limits s = some result → Delivered s e result
  /-- A raised error comes somewhere, unless a construct is open that the program does not have. -/
  comesOn {n : Nat} {s : State} {e : ScriptError} : reaches n s → Raised p limits s e →
    (∀ g ∈ s.guards, (p.tries[g.table]?).isSome) → (step p limits s).isSome
  /-- To throw an error object is to raise its error, and so is the end of a finally block. -/
  departs {s : State} {e : ScriptError} {h : Holder} : h.Departs p s → h.Holds s e →
    Raised p limits s e
  /-- Through handlers, finally blocks and throws an error stays the same. -/
  stays {n m : Nat} {s s' : State} {h h' : Holder} {e : ScriptError} : reaches n s → h.Holds s e →
    e.trace ≠ [] → Journey p reaches n h m h' → reaches m s' → h'.Holds s' e
  comes {n : Nat} {s : State} {h : Holder} {e : ScriptError} : reaches n s → h.Holds s e →
    e.trace ≠ [] → Comes p limits index reaches e n h
  /-- The error that ends an execution has just been captured, or has come all the way. -/
  uncaught {n : Nat} {s : State} {f : Finished} {e : ScriptError} : reaches n s →
    step p limits s = some (.done f) → f.outcome = .failed e →
    Captured p limits index s e ∨
      ∃ h : Holder, h.Holds s e ∧ h.Departs p s ∧ Comes p limits index reaches e n h

/-- A state in which the function at `index` has just been entered from outside. -/
structure Begins (p : Program) (index : Nat) (s : State) : Prop where
  function : s.frame.function = index
  lt_size : index < p.functions.size
  callers : s.callers = #[]
  pending : s.pending = #[]

theorem begins_of_invoke {m : Machine} {index : Nat} {args : List Value} {s : State}
    (h : m.invoke 0 index args = .ok (.unfinished s)) : Begins m.program index s := by
  unfold invoke at h
  split at h
  · cases h
  · next f hf =>
    split at h
    · cases h
    · cases h
    · next s₀ hstart =>
      cases h
      unfold Machine.start at hstart
      dsimp only at hstart
      split at hstart
      · cases hstart
      · split at hstart
        · cases hstart
        · cases hstart
          exact ⟨rfl, (Array.getElem?_eq_some_iff.1 hf).1, rfl, rfl⟩

section trajectory

variable {p : Program} {limits : Limits} {index : Nat} {reaches : Nat → State → Prop}
  (h : Trajectory p limits reaches) (hbegins : ∀ s, reaches 0 s → Begins p index s)
include h

/-- The run lemma forward. -/
theorem Trajectory.stays {n m : Nat} {s s' : State} {holder holder' : Holder} {e : ScriptError}
    (hs : reaches n s) (hholds : holder.Holds s e) (htrace : e.trace ≠ [])
    (hjourney : Journey p reaches n holder m holder') (hs' : reaches m s') :
    holder'.Holds s' e := by
  induction hjourney generalizing s' with
  | here =>
    cases h.unique hs hs'
    exact hholds
  | @next k t t' _ _ _ ht ht' hmoves ih =>
    -- the states of the journey are those of the execution, so `t'` comes from `t` by a step
    cases h.unique ht' hs'
    obtain ⟨u, hu, hstep⟩ := h.last ht'
    cases h.unique hu ht
    exact holds_of_moves hstep hmoves (ih ht) htrace

include hbegins

/-- The run lemma of the chain of calls. -/
theorem Trajectory.linked {n : Nat} {s : State} (hs : reaches n s) : Linked p index s.frames := by
  induction n generalizing s with
  | zero =>
    have hstart := hbegins s hs
    have hframes : s.frames = [s.frame] := by simp [State.frames, hstart.callers]
    rw [hframes]
    exact .entry hstart.function hstart.lt_size
  | succ n ih =>
    obtain ⟨t, ht, hstep⟩ := h.last hs
    exact (ih ht).next hstep

/-- The run lemma backward. -/
theorem Trajectory.comes {n : Nat} {s : State} {holder : Holder} {e : ScriptError}
    (hs : reaches n s) (hholds : holder.Holds s e) (htrace : e.trace ≠ []) :
    Comes p limits index reaches e n holder := by
  induction n generalizing s holder with
  | zero =>
    cases holder with
    | object r => exact .before hs hholds .here
    | waiting i =>
      obtain ⟨position, hget⟩ := hholds
      simp [(hbegins s hs).pending] at hget
  | succ n ih =>
    obtain ⟨t, ht, hstep⟩ := h.last hs
    rcases moves_or_captured (h.linked hbegins ht) hstep hholds htrace with
      ⟨holder₀, hbefore, hmoves⟩ | ⟨hcaptured, harrives⟩
    · exact (ih ht hbefore).next ht hs hmoves
    · exact .captured ht hs hcaptured harrives .here

theorem Trajectory.traceDiscipline : TraceDiscipline p limits index reaches where
  captures := by
    rintro n s e hs ⟨t, hamid, hraise⟩ hnil
    refine ⟨trace p t, genuine_trace (h.linked hbegins hs) hamid, fun result hstep => ?_⟩
    rw [← traced_of_nil hnil]
    exact hamid.delivered (hraise.symm.trans hstep)
  passes := delivered_of_trace
  comesOn := by
    rintro n s e hs ⟨t, hamid, hraise⟩ htables
    have hnested := h.nested hs
    have hrewinds : Rewinds t t.guards := by
      rw [hamid.guards]
      apply rewinds_of_nested hnested.sorted
      rw [State.depth, hamid.callers]
      exact hnested.frame_le
    rw [hraise]
    exact unwind_isSome hrewinds (hamid.guards ▸ htables)
  departs := raised_of_departs
  stays := h.stays
  comes := h.comes hbegins
  uncaught := by
    intro n s f e hs hstep hfailed
    rcases departs_or_captured (h.linked hbegins hs) hstep hfailed with
      ⟨holder, hholds, hdeparts, htrace⟩ | hcaptured
    · exact .inr ⟨holder, hholds, hdeparts, h.comes hbegins hs hholds htrace⟩
    · exact .inl hcaptured

end trajectory

theorem last_of_run {p : Program} {limits : Limits} {n : Nat} {s : State} {f : Finished}
    (h : run p limits n s = .finished f) :
    ∃ k t, run p limits k s = .unfinished t ∧ step p limits t = some (.done f) := by
  induction n generalizing s with
  | zero => cases h
  | succ n ih =>
    unfold run at h
    split at h
    · cases h
    · next f' hstep =>
      cases h
      exact ⟨0, s, rfl, hstep⟩
    · next s' hstep =>
      obtain ⟨k, t, hrun, hlast⟩ := ih h
      exact ⟨k + 1, t, by rw [run, hstep]; exact hrun, hlast⟩

/-- In every execution of every program, errors keep the traces they get where they are first
raised, and these are chains of calls of the program. An execution fails with such an error, unless
no frame was made for the function it was to begin with. -/
theorem invoke_traceDiscipline (m : Machine) (index : Nat) (args : List Value) :
    TraceDiscipline m.program m.limits index
        (fun n s => m.invoke n index args = .ok (.unfinished s)) ∧
      ∀ n f e, m.invoke n index args = .ok (.finished f) → f.outcome = .failed e →
        (∃ k s, m.invoke k index args = .ok (.unfinished s) ∧
          step m.program m.limits s = some (.done f)) ∨
        ∃ function, m.program.functions[index]? = some function ∧
          refusal? m.limits function 0 0 args.length = some e := by
  refine ⟨(trajectory_of_invoke m index args).traceDiscipline fun s => begins_of_invoke, ?_⟩
  intro n f e hinvoke hfailed
  unfold invoke at hinvoke ⊢
  cases hfunction : m.program.functions[index]? with
  | none => simp [hfunction] at hinvoke
  | some function =>
    simp only [hfunction] at hinvoke ⊢
    cases hstart :
      Machine.start m.program m.limits { m.world with output := #[] } function index args with
    | none => simp [hstart] at hinvoke
    | some progress =>
      cases progress with
      | next s =>
        simp only [hstart, Except.ok.injEq] at hinvoke ⊢
        exact .inl (last_of_run hinvoke)
      | done f' =>
        simp only [hstart, Except.ok.injEq, Run.finished.injEq] at hinvoke
        subst hinvoke
        refine .inr ⟨function, rfl, ?_⟩
        unfold Machine.start at hstart
        dsimp only at hstart
        split at hstart
        · next e' hrefusal =>
          cases hstart
          rw [hrefusal, Outcome.failed.inj hfailed]
        · split at hstart
          · cases hstart
          · cases hstart

/-- An error that a function raises is thrown again by the handler of its caller, waits for the
finally block and ends the execution. -/
def rethrownCall : Program where
  constants := #[.nil]
  functions := #[⟨mainName, 0, 8, 0, 0, [], 1⟩, ⟨"raise", 8, 10, 0, 0, [], 1⟩]
  tries := #[⟨[⟨noIndex, 4⟩], 5⟩]
  code := #[.of .pushTry, .of .call 1, .of .pop, .of .popTry 6, .of .throw, .of .endFinally,
    .of .loadConst, .of .ret, .of .loadConst, .of .throw]

def rethrownCallState? (n : Nat) : Option State :=
  match (create rethrownCall {} [] {}).invoke n 0 [] with
  | .ok (.unfinished s) => some s
  | _ => none

/-- The fifth step starts the finally block, and the sixth ends the execution. The error tells the
throw in the callee and the call in the main program. -/
theorem invoke_traceDiscipline_rethrownCall : rethrownCall.verify = .ok rethrownCall ∧
    ∃ s f e, (create rethrownCall {} [] {}).invoke 5 0 [] = .ok (.unfinished s) ∧
      step rethrownCall {} s = some (.done f) ∧ f.outcome = .failed e ∧
      e.trace = [⟨"raise", 9, [], 0⟩, ⟨mainName, 1, [], 0⟩] ∧
      Comes rethrownCall {} 0
        (fun n s => (create rethrownCall {} [] {}).invoke n 0 [] = .ok (.unfinished s)) e 5
        (.waiting 0) := by
  let e : ScriptError := ⟨.runtime, [], "null", [⟨"raise", 9, [], 0⟩, ⟨mainName, 1, [], 0⟩]⟩
  have hverify : rethrownCall.verify = .ok rethrownCall := eq_ok_of_toOption (by decide +kernel)
  have hlast : ∃ s ∈ rethrownCallState? 5, s.pending[0]? = some ⟨0, .rethrow e⟩ ∧
      step rethrownCall {} s = some (.done ⟨.failed e, s.world, s.stats⟩) := by decide +kernel
  obtain ⟨s, hs, hpending, hstep⟩ := hlast
  have hreached : (create rethrownCall {} [] {}).invoke 5 0 [] = .ok (.unfinished s) := by
    unfold rethrownCallState? at hs
    split at hs
    · next hinvoke =>
      cases hs
      exact hinvoke
    · cases hs
  have hdiscipline := (invoke_traceDiscipline (create rethrownCall {} [] {}) 0 []).1
  exact ⟨hverify, s, _, e, hreached, hstep, rfl, rfl,
    hdiscipline.comes hreached ⟨0, hpending⟩ (by simp [e])⟩

end Machine
end ScriptMachine
