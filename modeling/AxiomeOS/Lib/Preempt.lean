import AxiomeOS.Lib.Runs
import Mathlib.Data.List.Basic

/-!
# Calls that can be interrupted between two actions

A call is a program: it returns a result, or it does one action on the shared state and goes on
with what the action yields.  An action may fail.  Threads make calls one action at a time, and
between two actions an interrupt may run a handler that makes another thread the running one.

`exec` runs a program to its end without an interruption.  A configuration is *serial* with respect
to a predicate `I` when it is what uninterrupted calls make of a state with `I`: no call is in
progress, or one is, and what is left of it leads where the whole call leads.  `Serial.step` is the
rule: where no interrupt falls into a call, single actions keep a configuration serial.
-/

namespace AxiomeOS.Preempt

open Option

variable {σ ρ τ ε ι : Type} {α : Type}

/-- What is left of a call: the result, or an action and what follows it. -/
inductive Prog (σ ρ : Type) : Type 1
  | ret (r : ρ)
  | act {α : Type} (f : σ → Option (σ × α)) (k : α → Prog σ ρ)

/-- One action of a program, and what is left of it. -/
def Prog.next : Prog σ ρ → σ → Option (σ × Prog σ ρ)
  | .ret r, s => some (s, .ret r)
  | .act f k, s => (f s).map fun x => (x.1, k x.2)

/-- The program run to its end. -/
def Prog.exec : Prog σ ρ → σ → Option (σ × ρ)
  | .ret r, s => some (s, r)
  | .act f k, s => (f s).bind fun x => (k x.2).exec x.1

/-- An action that reads. -/
def Prog.get (f : σ → Option α) (k : α → Prog σ ρ) : Prog σ ρ := .act (fun s => (f s).map (s, ·)) k

/-- An action that writes. -/
def Prog.put (f : σ → Option σ) (k : Prog σ ρ) : Prog σ ρ :=
  .act (fun s => (f s).map (·, ())) fun _ => k

section Exec

variable (s : σ)

omit s in
@[simp] theorem exec_ret (r : ρ) : (Prog.ret r : Prog σ ρ).exec = fun s => some (s, r) := rfl

@[simp] theorem exec_act (f : σ → Option (σ × α)) (k : α → Prog σ ρ) :
    (Prog.act f k).exec s = (f s).bind fun x => (k x.2).exec x.1 := rfl

@[simp] theorem exec_get (f : σ → Option α) (k : α → Prog σ ρ) :
    (Prog.get f k).exec s = (f s).bind fun a => (k a).exec s := by
  rw [Prog.get, exec_act, bind_map]
  rfl

@[simp] theorem exec_put (f : σ → Option σ) (k : Prog σ ρ) :
    (Prog.put f k).exec s = (f s).bind k.exec := by
  rw [Prog.put, exec_act, bind_map]
  rfl

theorem exec_eq_next (p : Prog σ ρ) : p.exec s = (p.next s).bind fun x => x.2.exec x.1 := by
  cases p with
  | ret r => rfl
  | act f k =>
    rw [exec_act, Prog.next, bind_map]
    rfl

end Exec

/-! ### Threads -/

/-- The threads: which one the state makes the running one, what they may call, and the handler of
the interrupts. -/
structure System (σ ρ τ ε ι : Type) where
  current : σ → τ
  prog : ε → Prog σ ρ
  handler : σ → ι → Option σ

/-- The shared state, the thread on the processor, the calls in progress, each with the thread that
makes it, and the results of those that have returned, in order. -/
structure Config (σ ρ τ : Type) where
  s : σ
  cpu : τ
  calls : List (τ × Prog σ ρ)
  results : List ρ

/-- The running thread begins a call, or does the next action of the one it is in, or an interrupt
is delivered. -/
inductive Event (ε ι : Type)
  | begin (e : ε)
  | next
  | irq (i : ι)

variable [DecidableEq τ] (S : System σ ρ τ ε ι)

/-- What is left of the call the running thread is in. -/
def Config.within (c : Config σ ρ τ) : Option (Prog σ ρ) :=
  (c.calls.find? fun x => x.1 = c.cpu).map Prod.snd

/-- The calls of the other threads. -/
def Config.others (c : Config σ ρ τ) : List (τ × Prog σ ρ) := c.calls.filter fun x => x.1 ≠ c.cpu

/-- The running thread has come to `p`.  When its call is over, the thread that the state names
goes on. -/
def Config.reach (c : Config σ ρ τ) (s : σ) : Prog σ ρ → Config σ ρ τ
  | .ret r => ⟨s, S.current s, c.others, c.results ++ [r]⟩
  | p => ⟨s, c.cpu, (c.cpu, p) :: c.others, c.results⟩

/-- An event that can take place, or `none` if an action of it fails. -/
def Config.fire (c : Config σ ρ τ) : Event ε ι → Option (Config σ ρ τ)
  | .begin e => some (c.reach S c.s (S.prog e))
  | .next => c.within.bind fun p => (p.next c.s).map fun x => c.reach S x.1 x.2
  | .irq i => (S.handler c.s i).map fun s => { c with s := s, cpu := S.current s }

/-- Whether the event can take place: a thread makes one call at a time. -/
def Config.Enabled (c : Config σ ρ τ) : Event ε ι → Prop
  | .begin _ => c.within.isNone = true
  | .next => c.within.isSome = true
  | .irq _ => True

def Step (c : Config σ ρ τ) (e : Event ε ι) (c' : Config σ ρ τ) : Prop :=
  c.Enabled e ∧ c.fire S e = some c'

/-- No interrupt falls into a call. -/
def Undisturbed (c : Config σ ρ τ) : Event ε ι → Prop
  | .irq _ => c.within.isNone = true
  | _ => True

/-- What is asked of a call when it begins, and of an interrupt. -/
def Allowed (A : σ → ε → Prop) (B : σ → ι → Prop) (c : Config σ ρ τ) : Event ε ι → Prop
  | .begin e => A c.s e
  | .next => True
  | .irq i => B c.s i

instance (c : Config σ ρ τ) : (e : Event ε ι) → Decidable (c.Enabled e)
  | .begin _ => inferInstanceAs (Decidable (_ = true))
  | .next => inferInstanceAs (Decidable (_ = true))
  | .irq _ => .isTrue trivial

instance (c : Config σ ρ τ) : (e : Event ε ι) → Decidable (Undisturbed c e)
  | .begin _ => .isTrue trivial
  | .next => .isTrue trivial
  | .irq _ => inferInstanceAs (Decidable (_ = true))

instance {A : σ → ε → Prop} {B : σ → ι → Prop} [∀ s e, Decidable (A s e)] [∀ s i, Decidable (B s i)]
    (c : Config σ ρ τ) : (e : Event ε ι) → Decidable (Allowed A B c e)
  | .begin e => inferInstanceAs (Decidable (A c.s e))
  | .next => .isTrue trivial
  | .irq i => inferInstanceAs (Decidable (B c.s i))

/-- No call is in progress. -/
def Config.Idle (c : Config σ ρ τ) : Prop := c.cpu = S.current c.s ∧ c.calls = []

/-- The configuration with no call in progress. -/
def System.start (s : σ) : Config σ ρ τ := ⟨s, S.current s, [], []⟩

omit [DecidableEq τ] in
theorem System.start_idle (s : σ) : (S.start s).Idle S := ⟨rfl, rfl⟩

variable {S} {A : σ → ε → Prop} {B : σ → ι → Prop} {I : σ → List ρ → Prop} {c c' : Config σ ρ τ}
  {e : Event ε ι}

theorem within_of_nil (h : c.calls = []) : c.within = none := by
  rw [Config.within, h]
  rfl

theorem others_of_nil (h : c.calls = []) : c.others = [] := by
  rw [Config.others, h]
  rfl

theorem within_of_singleton {p : Prog σ ρ} (h : c.calls = [(c.cpu, p)]) : c.within = some p := by
  simp [Config.within, h]

theorem others_of_singleton {p : Prog σ ρ} (h : c.calls = [(c.cpu, p)]) : c.others = [] := by
  simp [Config.others, h]

/-- The configuration is what uninterrupted calls have made of a state with `I`. -/
inductive Serial (S : System σ ρ τ ε ι) (A : σ → ε → Prop) (I : σ → List ρ → Prop)
    (c : Config σ ρ τ) : Prop
  | idle (h : c.Idle S) (hI : I c.s c.results)
  | within (s : σ) (e : ε) (p : Prog σ ρ) (hI : I s c.results) (hA : A s e)
      (hcalls : c.calls = [(c.cpu, p)]) (hexec : p.exec c.s = (S.prog e).exec s)

theorem Serial.idle_of_none (h : Serial S A I c) (hn : c.within.isNone = true) :
    c.Idle S ∧ I c.s c.results := by
  cases h with
  | idle h hI => exact ⟨h, hI⟩
  | within s e p hI hA hcalls hexec =>
    rw [within_of_singleton hcalls] at hn
    cases hn

omit [DecidableEq τ] in
theorem Serial.of_idle (h : Serial S A I c) (hidle : c.Idle S) : I c.s c.results := by
  cases h with
  | idle _ hI => exact hI
  | within s e p hI hA hcalls hexec =>
    rw [hidle.2] at hcalls
    cases hcalls

/-- The thread that has made the call comes to `p`, and nobody else is in one. -/
theorem Serial.reach {s s₁ : σ} {e : ε} {p : Prog σ ρ}
    (hcall : ∀ s l e s' r, I s l → A s e → (S.prog e).exec s = some (s', r) → I s' (l ++ [r]))
    (hI : I s c.results) (hA : A s e) (hothers : c.others = [])
    (hexec : p.exec s₁ = (S.prog e).exec s) : Serial S A I (c.reach S s₁ p) := by
  cases p with
  | ret r => exact .idle ⟨rfl, hothers⟩ (hcall s _ e s₁ r hI hA hexec.symm)
  | act f k => exact .within s e _ hI hA (congrArg _ hothers) hexec

/-- **One event** that does not fall into a call keeps the configuration serial, if whole calls and
whole interrupts keep `I`. -/
theorem Serial.step (h : Serial S A I c)
    (hcall : ∀ s l e s' r, I s l → A s e → (S.prog e).exec s = some (s', r) → I s' (l ++ [r]))
    (hirq : ∀ s l i s', I s l → B s i → S.handler s i = some s' → I s' l)
    (hu : Undisturbed c e) (ha : Allowed A B c e) (hs : Step S c e c') : Serial S A I c' := by
  obtain ⟨hen, hfire⟩ := hs
  cases e with
  | begin e =>
    obtain ⟨hidle, hI⟩ := h.idle_of_none hen
    obtain rfl := some.inj hfire
    exact Serial.reach hcall hI ha (others_of_nil hidle.2) rfl
  | next =>
    cases h with
    | idle h =>
      rw [Config.Enabled, within_of_nil h.2] at hen
      cases hen
    | within s e p hI hA hcalls hexec =>
      rw [Config.fire, within_of_singleton hcalls] at hfire
      obtain ⟨x, hx, rfl⟩ := map_eq_some_iff.mp hfire
      refine Serial.reach hcall hI hA (others_of_singleton hcalls) ?_
      rw [← hexec, exec_eq_next c.s p, hx, bind_some]
  | irq i =>
    obtain ⟨hidle, hI⟩ := h.idle_of_none hu
    obtain ⟨s, hs, rfl⟩ := map_eq_some_iff.mp hfire
    exact .idle ⟨rfl, hidle.2⟩ (hirq _ _ _ _ hI ha hs)

/-- Where whole calls and whole interrupts go through, so does each of their actions. -/
theorem Serial.fires (h : Serial S A I c)
    (hcall : ∀ s l e, I s l → A s e → ((S.prog e).exec s).isSome)
    (hirq : ∀ s l i, I s l → B s i → (S.handler s i).isSome)
    (hen : c.Enabled e) (hu : Undisturbed c e) (ha : Allowed A B c e) : (c.fire S e).isSome := by
  cases e with
  | begin e => rfl
  | next =>
    cases h with
    | idle h =>
      rw [Config.Enabled, within_of_nil h.2] at hen
      cases hen
    | within s e p hI hA hcalls hexec =>
      have hsome := hcall s _ e hI hA
      rw [← hexec, exec_eq_next] at hsome
      obtain ⟨x, hx⟩ := isSome_iff_exists.mp (isSome_of_isSome_bind hsome)
      rw [Config.fire, within_of_singleton hcalls, bind_some, hx]
      rfl
  | irq i =>
    obtain ⟨hidle, hI⟩ := h.idle_of_none hu
    obtain ⟨s, hs⟩ := isSome_iff_exists.mp (hirq _ _ i hI ha)
    rw [Config.fire, hs]
    rfl

/-! ### Whole calls -/

/-- The running thread makes the call `e`, from its beginning to its return. -/
def Calls (S : System σ ρ τ ε ι) (c : Config σ ρ τ) (e : ε) (c' : Config σ ρ τ) : Prop :=
  ∃ n, Runs.Run (Step S) c (.begin e :: List.replicate n .next) c' ∧ c'.Idle S

/-- The configuration after a call that has led to `s` and returned `r`. -/
def Config.returned (S : System σ ρ τ ε ι) (c : Config σ ρ τ) (s : σ) (r : ρ) : Config σ ρ τ :=
  ⟨s, S.current s, [], c.results ++ [r]⟩

section Calls

variable (hnil : c.calls = [])
include hnil

theorem reach_ret (s : σ) (r : ρ) : c.reach S s (.ret r) = c.returned S s r := by
  rw [Config.reach, others_of_nil hnil]
  rfl

/-- After one action of a call the next one is due. -/
theorem fire_reach {f : σ → Option (σ × α)} {k : α → Prog σ ρ} (s : σ) :
    (c.reach S s (.act f k)).fire S (.next : Event ε ι) =
      ((Prog.act f k).next s).map fun x => c.reach S x.1 x.2 := by
  have hcalls : (c.reach S s (.act f k)).calls = [(c.cpu, .act f k)] :=
    congrArg _ (others_of_nil hnil)
  rw [Config.fire, within_of_singleton hcalls, bind_some]
  refine congrArg (Option.map · _) (funext fun x => ?_)
  obtain ⟨s', p⟩ := x
  cases p <;> simp [Config.reach, Config.others, hnil]

theorem exec_of_nexts {n : ℕ} {s : σ} {p : Prog σ ρ} (hidle : c'.Idle S)
    (h : Runs.Run (Step S) (c.reach S s p) (List.replicate n .next) c') :
    ∃ s' r, p.exec s = some (s', r) ∧ c' = c.returned S s' r := by
  induction n generalizing s p with
  | zero =>
    cases h
    cases p with
    | ret r => exact ⟨s, r, rfl, reach_ret hnil s r⟩
    | act f k => cases hidle.2
  | succ n ih =>
    obtain _ | ⟨⟨hen, hfire⟩, hrest⟩ := h
    cases p with
    | ret r =>
      rw [reach_ret hnil, Config.Enabled, within_of_nil rfl] at hen
      cases hen
    | act f k =>
      rw [fire_reach hnil] at hfire
      obtain ⟨x, hx, rfl⟩ := map_eq_some_iff.mp hfire
      obtain ⟨s', r, hexec, hc'⟩ := ih hrest
      refine ⟨s', r, ?_, hc'⟩
      rw [exec_eq_next, hx, bind_some, hexec]

end Calls

/-- A whole call is its program. -/
theorem Calls.exec {e : ε} (h : Calls S c e c') (hidle : c.Idle S) :
    ∃ s r, (S.prog e).exec c.s = some (s, r) ∧ c' = c.returned S s r := by
  obtain ⟨n, hrun, hidle'⟩ := h
  obtain _ | ⟨⟨-, hfire⟩, hrest⟩ := hrun
  obtain rfl := some.inj hfire
  exact exec_of_nexts hidle.2 hidle' hrest

end AxiomeOS.Preempt
