/-
# OmarchyPool.Lib.Program -- requests as programs of atomic statements

A request to a service that keeps its state in a shared store is a program: a
sequence of atomic statements, each of which reads the store, writes it, and
decides what comes next.  `Program` is that sequence.  One definition of a
request then has two meanings:

* `Program.run` executes it alone, every statement back to back, and `Sequence` runs
  requests one after another;
* `Config` runs any number of requests at once, a `Move` at a time, a statement
  of one request between any two statements of another.

A `Contract` says what a request may assume and must keep.  `Program.Spec` is its
proof obligation, by structural recursion over the program: at each statement the
store may have moved along `rely` since the last one.  Two rules carry the
obligation to executions:

* `run_spec`: alone, a request that meets its contract keeps the invariant and
  ends in its postcondition;
* `reachable_spec`: in every configuration any interleaving reaches, the invariant
  holds and every request in flight still meets the rest of its contract
  (`reachable_each`, where each kind of request keeps a guarantee of its own).

`Program.Only` is the easy case: every statement of the program is one the contract lets
any request run, so nothing need be known of what it read (`Only.spec`).

`Contract.meets` restricts the runs: a statement is taken only in a store where it
holds of the statement's label.  With `meets` always true a run is any interleaving.
-/
import Mathlib.Data.List.Basic
import Mathlib.Tactic.Common

namespace OmarchyPool.Lib

set_option autoImplicit false

/-- A program of atomic statements over a store `σ`.  A statement carries a label,
its effect on the store, and what follows, which may depend on the store it found. -/
inductive Program (σ ℓ ε α : Type) where
  | pure (value : α)
  | fail (error : ε)
  | stmt (label : ℓ) (write : σ → σ) (next : σ → Program σ ℓ ε α)

namespace Program

variable {σ ℓ ε α β : Type}

def bind : Program σ ℓ ε α → (α → Program σ ℓ ε β) → Program σ ℓ ε β
  | .pure value, rest => rest value
  | .fail error, _ => .fail error
  | .stmt label write next, rest => .stmt label write fun s => (next s).bind rest

instance : Monad (Program σ ℓ ε) where
  pure := .pure
  bind := .bind

/-- One read of the store. -/
def query (label : ℓ) (read : σ → α) : Program σ ℓ ε α :=
  .stmt label id fun s => .pure (read s)

/-- One write to the store. -/
def exec (label : ℓ) (write : σ → σ) : Program σ ℓ ε Unit :=
  .stmt label write fun _ => .pure ()

/-- One transaction: it is applied whole, or refused and leaves the store as it was. -/
def transact (label : ℓ) (write : σ → Except ε σ) : Program σ ℓ ε Unit :=
  .stmt label (fun s => match write s with | .ok s' => s' | .error _ => s)
    fun s => match write s with | .ok _ => .pure () | .error e => .fail e

/-- `try … catch`: what the program wrote before it failed stays. -/
def rescue : Program σ ℓ ε α → (ε → Program σ ℓ ε α) → Program σ ℓ ε α
  | .pure value, _ => .pure value
  | .fail error, handle => handle error
  | .stmt label write next, handle => .stmt label write fun s => (next s).rescue handle

/-- The request alone: every statement back to back. -/
def run : Program σ ℓ ε α → σ → Except ε α × σ
  | .pure value, s => (.ok value, s)
  | .fail error, s => (.error error, s)
  | .stmt _ write next, s => (next s).run (write s)

/-- The label of the statement the program stands at. -/
def pending : Program σ ℓ ε α → Option ℓ
  | .stmt label _ _ => some label
  | _ => none

/-- What the program has ended with, if it has. -/
def answer? : Program σ ℓ ε α → Option (Except ε α)
  | .pure value => some (.ok value)
  | .fail error => some (.error error)
  | .stmt _ _ _ => none

theorem eq_pure_of_answer? {p : Program σ ℓ ε α} {value : α} (is : p.answer? = some (.ok value)) :
    p = .pure value := by
  cases p with
  | pure _ =>
      simp only [answer?, Option.some.injEq, Except.ok.injEq] at is
      rw [is]
  | fail _ => simp [answer?] at is
  | stmt _ _ _ => simp [answer?] at is

@[simp] theorem pure_eq (value : α) : (pure value : Program σ ℓ ε α) = .pure value := rfl

@[simp] theorem bind_eq (p : Program σ ℓ ε α) (rest : α → Program σ ℓ ε β) :
    p >>= rest = p.bind rest := rfl

end Program

/-- What a request may assume of the others, must keep itself, and the condition
under which the runs considered take a statement. -/
structure Contract (σ ℓ : Type) where
  inv : σ → Prop
  rely : σ → σ → Prop
  guar : σ → σ → Prop
  meets : ℓ → σ → Prop

namespace Program

variable {σ ℓ ε α β : Type} (c : Contract σ ℓ)

/-- The program keeps `c` from a store that was `s` when it last looked, and ends in `post`. -/
def Spec : Program σ ℓ ε α → σ → (Except ε α → σ → Prop) → Prop
  | .pure value, s, post => post (.ok value) s
  | .fail error, s, post => post (.error error) s
  | .stmt label write next, s, post => ∀ t, c.rely s t → c.inv t → c.meets label t →
      c.inv (write t) ∧ c.guar t (write t) ∧ (next t).Spec (write t) post

variable {c}

theorem Spec.mono {p : Program σ ℓ ε α} {s : σ} {post post' : Except ε α → σ → Prop}
    (spec : p.Spec c s post) (weaker : ∀ result t, post result t → post' result t) :
    p.Spec c s post' := by
  induction p generalizing s with
  | pure value => exact weaker _ _ spec
  | fail error => exact weaker _ _ spec
  | stmt label write next ih =>
      intro t relied inv meets
      obtain ⟨kept, guaranteed, rest⟩ := spec t relied inv meets
      exact ⟨kept, guaranteed, ih t rest⟩

theorem Spec.and {p : Program σ ℓ ε α} {s : σ} {post post' : Except ε α → σ → Prop}
    (spec : p.Spec c s post) (spec' : p.Spec c s post') :
    p.Spec c s fun result t => post result t ∧ post' result t := by
  induction p generalizing s with
  | pure value => exact ⟨spec, spec'⟩
  | fail error => exact ⟨spec, spec'⟩
  | stmt label write next ih =>
      intro t relied inv meets
      obtain ⟨kept, guaranteed, rest⟩ := spec t relied inv meets
      exact ⟨kept, guaranteed, ih t rest (spec' t relied inv meets).2.2⟩

/-- Sequencing: the rest of the program starts where the first part ends, and a
failure of the first part is a failure of the whole. -/
theorem Spec.bind {p : Program σ ℓ ε α} {rest : α → Program σ ℓ ε β} {s : σ}
    {post : Except ε β → σ → Prop}
    (spec : p.Spec c s fun result t =>
      match result with
      | .ok value => (rest value).Spec c t post
      | .error error => post (.error error) t) :
    (p.bind rest).Spec c s post := by
  induction p generalizing s with
  | pure value => exact spec
  | fail error => exact spec
  | stmt label write next ih =>
      intro t relied inv meets
      obtain ⟨kept, guaranteed, after⟩ := spec t relied inv meets
      exact ⟨kept, guaranteed, ih t after⟩

theorem Spec.rescue {p : Program σ ℓ ε α} {handle : ε → Program σ ℓ ε α} {s : σ}
    {post : Except ε α → σ → Prop}
    (spec : p.Spec c s fun result t =>
      match result with
      | .ok value => post (.ok value) t
      | .error error => (handle error).Spec c t post) :
    (p.rescue handle).Spec c s post := by
  induction p generalizing s with
  | pure value => exact spec
  | fail error => exact spec
  | stmt label write next ih =>
      intro t relied inv meets
      obtain ⟨kept, guaranteed, after⟩ := spec t relied inv meets
      exact ⟨kept, guaranteed, ih t after⟩

theorem spec_query {label : ℓ} {read : σ → α} {s : σ} {post : Except ε α → σ → Prop}
    (still : ∀ t, c.guar t t)
    (after : ∀ t, c.rely s t → c.inv t → c.meets label t → post (.ok (read t)) t) :
    (query label read : Program σ ℓ ε α).Spec c s post :=
  fun t relied inv meets => ⟨inv, still t, after t relied inv meets⟩

theorem spec_exec {label : ℓ} {write : σ → σ} {s : σ} {post : Except ε Unit → σ → Prop}
    (after : ∀ t, c.rely s t → c.inv t → c.meets label t →
      c.inv (write t) ∧ c.guar t (write t) ∧ post (.ok ()) (write t)) :
    (exec label write : Program σ ℓ ε Unit).Spec c s post :=
  after

theorem spec_transact {label : ℓ} {write : σ → Except ε σ} {s : σ}
    {post : Except ε Unit → σ → Prop} (still : ∀ t, c.guar t t)
    (refused : ∀ t e, c.rely s t → c.inv t → c.meets label t → write t = .error e →
      post (.error e) t)
    (applied : ∀ t t', c.rely s t → c.inv t → c.meets label t → write t = .ok t' →
      c.inv t' ∧ c.guar t t' ∧ post (.ok ()) t') :
    (transact label write : Program σ ℓ ε Unit).Spec c s post := by
  intro t relied inv meets
  cases result : write t with
  | error e => simpa only [result, Spec] using ⟨inv, still t, refused t e relied inv meets result⟩
  | ok t' => simpa only [result, Spec] using applied t t' relied inv meets result

/-! ### Programs made of given statements only -/

/-- Every statement of the program, whatever it reads on the way, is one of `allowed`. -/
def Only (allowed : ℓ → (σ → σ) → Prop) : Program σ ℓ ε α → Prop
  | .pure _ => True
  | .fail _ => True
  | .stmt label write next => allowed label write ∧ ∀ s, (next s).Only allowed

theorem Only.bind {allowed : ℓ → (σ → σ) → Prop} {p : Program σ ℓ ε α}
    {rest : α → Program σ ℓ ε β} (first : p.Only allowed)
    (after : ∀ value, (rest value).Only allowed) : (p.bind rest).Only allowed := by
  induction p with
  | pure value => exact after value
  | fail error => trivial
  | stmt label write next ih => exact ⟨first.1, fun s => ih s (first.2 s)⟩

theorem Only.mono {allowed allowed' : ℓ → (σ → σ) → Prop} {p : Program σ ℓ ε α}
    (only : p.Only allowed) (wider : ∀ label write, allowed label write → allowed' label write) :
    p.Only allowed' := by
  induction p with
  | pure value => trivial
  | fail error => trivial
  | stmt label write next ih => exact ⟨wider _ _ only.1, fun s => ih s (only.2 s)⟩

theorem Only.query {allowed : ℓ → (σ → σ) → Prop} {label : ℓ} {read : σ → α}
    (ok : allowed label id) : (Program.query label read : Program σ ℓ ε α).Only allowed :=
  ⟨ok, fun _ => trivial⟩

theorem Only.exec {allowed : ℓ → (σ → σ) → Prop} {label : ℓ} {write : σ → σ}
    (ok : allowed label write) : (Program.exec label write : Program σ ℓ ε Unit).Only allowed :=
  ⟨ok, fun _ => trivial⟩

/-- A program of statements the contract lets anyone run meets it, and ends in a store
that flowed from the one it started in. -/
theorem Only.spec {allowed : ℓ → (σ → σ) → Prop} (flow : σ → σ → Prop)
    (trans : ∀ a b d, flow a b → flow b d → flow a d) (refl : ∀ s, flow s s)
    (relied : ∀ s t, c.rely s t → flow s t) (guaranteed : ∀ s t, c.guar s t → flow s t)
    (keeps : ∀ label write, allowed label write → ∀ t, c.inv t → c.meets label t →
      c.inv (write t) ∧ c.guar t (write t))
    {p : Program σ ℓ ε α} (only : p.Only allowed) {s : σ} (inv : c.inv s) :
    p.Spec c s fun _ t => flow s t ∧ c.inv t := by
  induction p generalizing s with
  | pure value => exact ⟨refl s, inv⟩
  | fail error => exact ⟨refl s, inv⟩
  | stmt label write next ih =>
      intro t moved invT meets
      obtain ⟨kept, guar⟩ := keeps label write only.1 t invT meets
      refine ⟨kept, guar, (ih t (only.2 t) kept).mono fun _ u ended => ?_⟩
      exact ⟨trans _ _ _ (trans _ _ _ (relied _ _ moved) (guaranteed _ _ guar)) ended.1, ended.2⟩

/-- The same where something is known of the store that no request undoes. -/
theorem Only.spec_knowing {allowed : ℓ → (σ → σ) → Prop} (known : σ → Prop)
    (stable : ∀ s t, c.rely s t → known s → known t) (trusted : ∀ s t, c.guar s t → c.rely s t)
    (keeps : ∀ label write, allowed label write → ∀ t, c.inv t → known t → c.meets label t →
      c.inv (write t) ∧ c.guar t (write t))
    {p : Program σ ℓ ε α} (only : p.Only allowed) {s : σ} (at_ : known s) :
    p.Spec c s fun _ t => known t := by
  induction p generalizing s with
  | pure value => exact at_
  | fail error => exact at_
  | stmt label write next ih =>
      intro t moved invT meets
      have knownT := stable s t moved at_
      obtain ⟨kept, guar⟩ := keeps label write only.1 t invT knownT meets
      exact ⟨kept, guar, ih t (only.2 t) (stable t _ (trusted _ _ guar) knownT)⟩

/-- Alone, a program that meets its contract keeps the invariant and ends in its
postcondition. -/
theorem run_spec (quiet : ∀ s, c.rely s s) (free : ∀ label s, c.meets label s)
    {p : Program σ ℓ ε α} {s : σ} {post : Except ε α → σ → Prop} (inv : c.inv s)
    (spec : p.Spec c s post) :
    c.inv (p.run s).2 ∧ post (p.run s).1 (p.run s).2 := by
  induction p generalizing s with
  | pure value => exact ⟨inv, spec⟩
  | fail error => exact ⟨inv, spec⟩
  | stmt label write next ih =>
      obtain ⟨kept, -, rest⟩ := spec s (quiet s) inv (free label s)
      exact ih s kept rest

end Program

/-! ## Requests one at a time -/

/-- The contract of a request that runs alone: nothing moves between its statements. -/
def Contract.alone (σ ℓ : Type) : Contract σ ℓ where
  inv := fun _ => True
  rely := Eq
  guar := fun _ _ => True
  meets := fun _ _ => True

namespace Program

variable {σ ℓ ε α : Type}

theorem alone_iff {p : Program σ ℓ ε α} {s : σ} {post : Except ε α → σ → Prop} :
    p.Spec (.alone σ ℓ) s post ↔ post (p.run s).1 (p.run s).2 := by
  induction p generalizing s with
  | pure value => exact Iff.rfl
  | fail error => exact Iff.rfl
  | stmt label write next ih =>
      constructor
      · intro spec
        exact (ih s).mp (spec s rfl trivial trivial).2.2
      · rintro ended t rfl - -
        exact ⟨trivial, trivial, (ih s).mpr ended⟩

/-- One program after another: the second starts where the first ended, with its answer. -/
theorem run_bind {β : Type} (p : Program σ ℓ ε α) (rest : α → Program σ ℓ ε β) (s : σ) :
    (p.bind rest).run s =
      match p.run s with
      | (.ok value, t) => (rest value).run t
      | (.error error, t) => (.error error, t) := by
  induction p generalizing s with
  | pure _ => rfl
  | fail _ => rfl
  | stmt label write next ih => exact ih s (write s)

/-- Whoever drops the answer still gets the store. -/
theorem run_discard {β : Type} (p : Program σ ℓ ε α) (value : β) (s : σ) :
    ((p.bind fun _ => .pure value).run s).2 = (p.run s).2 := by
  induction p generalizing s with
  | pure _ => rfl
  | fail _ => rfl
  | stmt label write next ih => exact ih s (write s)

theorem alone_query {label : ℓ} {read : σ → α} {s : σ} {post : Except ε α → σ → Prop}
    (after : post (.ok (read s)) s) : (query label read : Program σ ℓ ε α).Spec (.alone σ ℓ) s post :=
  alone_iff.mpr after

theorem alone_exec {label : ℓ} {write : σ → σ} {s : σ} {post : Except ε Unit → σ → Prop}
    (after : post (.ok ()) (write s)) :
    (exec label write : Program σ ℓ ε Unit).Spec (.alone σ ℓ) s post :=
  alone_iff.mpr after

end Program

/-- Every state a run of given steps reaches, each step `allowed` in the state it is taken in. -/
inductive Runs {σ ρ : Type} (next : ρ → σ → σ) (allowed : ρ → σ → Prop) (init : σ) : σ → Prop where
  | start : Runs next allowed init init
  | step {s : σ} (act : ρ) : Runs next allowed init s → allowed act s →
      Runs next allowed init (next act s)

section Runs

variable {σ ρ : Type} {next : ρ → σ → σ} {allowed : ρ → σ → Prop} {init : σ}

theorem Runs.induct (inv : σ → Prop) (start : inv init)
    (keeps : ∀ act s, allowed act s → inv s → inv (next act s)) {s : σ}
    (reached : Runs next allowed init s) : inv s := by
  induction reached with
  | start => exact start
  | step act _ ok ih => exact keeps act _ ok ih

variable (next allowed) in
/-- Each of a list of steps is allowed where it comes. -/
def allowsEach [∀ act s, Decidable (allowed act s)] : List ρ → σ → Bool
  | [], _ => true
  | act :: rest, s => decide (allowed act s) && allowsEach rest (next act s)

theorem Runs.steps [∀ act s, Decidable (allowed act s)] (list : List ρ) {s : σ}
    (reached : Runs next allowed init s) (ok : allowsEach next allowed list s = true) :
    Runs next allowed init (list.foldl (fun s act => next act s) s) := by
  induction list generalizing s with
  | nil => exact reached
  | cons act rest ih =>
      simp only [allowsEach, Bool.and_eq_true, decide_eq_true_eq] at ok
      exact ih (.step act reached ok.1) ok.2

end Runs

/-- Every store a sequence of requests reaches, each run to its end before the next, and each
`allowed` in the store it finds. -/
abbrev Sequence {σ ρ ℓ ε α : Type} (serve : ρ → Program σ ℓ ε α) (allowed : ρ → σ → Prop)
    (init : σ) : σ → Prop :=
  Runs (fun request s => ((serve request).run s).2) allowed init

/-! ## Any number of requests at once -/

/-- The store, and the requests in flight with what is left of each. -/
structure Config (σ ρ ℓ ε α : Type) where
  store : σ
  threads : List (ρ × Program σ ℓ ε α)

/-- A new request arrives, or one in flight runs its next statement. -/
inductive Move (ρ : Type) where
  | spawn (request : ρ)
  | run (thread : Nat)

namespace Config

variable {σ ρ ℓ ε α : Type}

def advance (c : Config σ ρ ℓ ε α) (thread : Nat) : Config σ ρ ℓ ε α :=
  match c.threads[thread]? with
  | some (request, .stmt _ write next) =>
      ⟨write c.store, c.threads.set thread (request, next c.store)⟩
  | _ => c

def move (serve : ρ → Program σ ℓ ε α) (c : Config σ ρ ℓ ε α) : Move ρ → Config σ ρ ℓ ε α
  | .spawn request => { c with threads := c.threads ++ [(request, serve request)] }
  | .run thread => c.advance thread

def Allows (meets : ℓ → σ → Prop) (c : Config σ ρ ℓ ε α) : Move ρ → Prop
  | .spawn _ => True
  | .run thread => ∀ request p label, c.threads[thread]? = some (request, p) →
      p.pending = some label → meets label c.store

end Config

/-- Every configuration some interleaving reaches from the store `init` with no
request in flight, each statement taken where `meets` holds. -/
inductive Reachable {σ ρ ℓ ε α : Type} (serve : ρ → Program σ ℓ ε α) (meets : ℓ → σ → Prop)
    (init : σ) : Config σ ρ ℓ ε α → Prop where
  | start : Reachable serve meets init ⟨init, []⟩
  | move {c : Config σ ρ ℓ ε α} (m : Move ρ) : Reachable serve meets init c →
      c.Allows meets m → Reachable serve meets init (c.move serve m)

/-- Every statement may be taken in every store: the runs are all interleavings. -/
def Unrestricted {σ ℓ : Type} (_ : ℓ) (_ : σ) : Prop := True

instance {σ ℓ : Type} (label : ℓ) (s : σ) : Decidable (Unrestricted label s) := instDecidableTrue

/-- The requests that have ended, with what they ended with. -/
def Config.answers {σ ρ ℓ ε α : Type} (c : Config σ ρ ℓ ε α) : List (ρ × Except ε α) :=
  c.threads.filterMap fun th => th.2.answer?.map fun result => (th.1, result)

theorem Config.mem_of_answers {σ ρ ℓ ε α : Type} {c : Config σ ρ ℓ ε α} {request : ρ} {value : α}
    (ended : (request, .ok value) ∈ c.answers) : (request, .pure value) ∈ c.threads := by
  obtain ⟨⟨other, p⟩, member, is⟩ := List.mem_filterMap.mp ended
  obtain ⟨result, found, same⟩ := Option.map_eq_some_iff.mp is
  cases same
  obtain rfl : p = .pure value := Program.eq_pure_of_answer? found
  exact member

/-! ### A given list of moves -/

section Moves

variable {σ ρ ℓ ε α : Type} (serve : ρ → Program σ ℓ ε α) (meets : ℓ → σ → Prop)

/-- `Allows`, evaluated. -/
def Config.allows [∀ label s, Decidable (meets label s)] (c : Config σ ρ ℓ ε α) : Move ρ → Bool
  | .spawn _ => true
  | .run thread =>
      match c.threads[thread]?.bind fun th => th.2.pending with
      | some label => decide (meets label c.store)
      | none => true

def Config.allowsAll [∀ label s, Decidable (meets label s)] (c : Config σ ρ ℓ ε α) :
    List (Move ρ) → Bool
  | [] => true
  | m :: rest => c.allows meets m && (c.move serve m).allowsAll rest

theorem Config.allows_sound [∀ label s, Decidable (meets label s)] {c : Config σ ρ ℓ ε α}
    {m : Move ρ} (checked : c.allows meets m = true) : c.Allows meets m := by
  cases m with
  | spawn request => trivial
  | run thread =>
      intro request p label found standing
      simpa [allows, found, standing] using checked

theorem Reachable.moves [∀ label s, Decidable (meets label s)] {init : σ}
    {c : Config σ ρ ℓ ε α} (reached : Reachable serve meets init c) (ms : List (Move ρ))
    (checked : c.allowsAll serve meets ms = true) :
    Reachable serve meets init (ms.foldl (Config.move serve) c) := by
  induction ms generalizing c with
  | nil => exact reached
  | cons m rest ih =>
      simp only [Config.allowsAll, Bool.and_eq_true] at checked
      exact ih (.move m reached (Config.allows_sound meets checked.1)) checked.2

/-- A list of moves that are each allowed leads to a reachable configuration. -/
theorem reachable_moves [∀ label s, Decidable (meets label s)] (init : σ) (ms : List (Move ρ))
    (checked : Config.allowsAll serve meets ⟨init, []⟩ ms = true) :
    Reachable serve meets init (ms.foldl (Config.move serve) ⟨init, []⟩) :=
  Reachable.moves serve meets .start ms checked

end Moves

section RelyGuarantee

variable {σ ρ ℓ ε α : Type} {serve : ρ → Program σ ℓ ε α} {c : Contract σ ℓ}
  {post : ρ → Except ε α → σ → Prop}

/-- The contract with a guarantee of one request's own. -/
def Contract.by (c : Contract σ ℓ) (guar : ρ → σ → σ → Prop) (request : ρ) : Contract σ ℓ :=
  { c with guar := guar request }

/-- What is left of a request meets its contract, from a store it looked at before. -/
def InFlight (c : Contract σ ℓ) (guar : ρ → σ → σ → Prop) (post : ρ → Except ε α → σ → Prop) (store : σ)
    (thread : ρ × Program σ ℓ ε α) : Prop :=
  ∃ seen, c.rely seen store ∧ thread.2.Spec (c.by guar thread.1) seen (post thread.1)

variable {guar : ρ → σ → σ → Prop}

theorem InFlight.later (relyTrans : ∀ a b d, c.rely a b → c.rely b d → c.rely a d)
    {store store' : σ} {thread : ρ × Program σ ℓ ε α} (flying : InFlight c guar post store thread)
    (moved : c.rely store store') : InFlight c guar post store' thread := by
  obtain ⟨seen, relied, spec⟩ := flying
  exact ⟨seen, relyTrans _ _ _ relied moved, spec⟩

/-- A statement of one request keeps the invariant and what every other relies on. -/
theorem advance_inFlight (quiet : ∀ s, c.rely s s)
    (relyTrans : ∀ a b d, c.rely a b → c.rely b d → c.rely a d)
    (trusted : ∀ request s t, guar request s t → c.rely s t) {config : Config σ ρ ℓ ε α}
    (inv : c.inv config.store) (flying : ∀ th ∈ config.threads, InFlight c guar post config.store th)
    (thread : Nat) (allowed : config.Allows c.meets (.run thread)) :
    c.inv (config.advance thread).store ∧
      ∀ th ∈ (config.advance thread).threads,
        InFlight c guar post (config.advance thread).store th := by
  unfold Config.advance
  split
  · rename_i request label write next found
    have member := List.mem_of_getElem? found
    obtain ⟨seen, relied, spec⟩ := flying _ member
    obtain ⟨kept, guaranteed, rest⟩ :=
      spec config.store relied inv (allowed _ _ label found rfl)
    refine ⟨kept, fun th inSet => ?_⟩
    rcases List.mem_or_eq_of_mem_set inSet with old | rfl
    · exact (flying th old).later relyTrans (trusted _ _ _ guaranteed)
    · exact ⟨_, quiet _, rest⟩
  · exact ⟨inv, flying⟩

/-- In every configuration an interleaving reaches, the invariant holds and each request in
flight meets what is left of its contract, each with a guarantee of its own. -/
theorem reachable_each (c : Contract σ ℓ) (guar : ρ → σ → σ → Prop) (post : ρ → Except ε α → σ → Prop)
    (quiet : ∀ s, c.rely s s)
    (relyTrans : ∀ a b d, c.rely a b → c.rely b d → c.rely a d)
    (trusted : ∀ request s t, guar request s t → c.rely s t) {init : σ} (start : c.inv init)
    (served : ∀ request s, c.inv s → (serve request).Spec (c.by guar request) s (post request))
    {config : Config σ ρ ℓ ε α} (reached : Reachable serve c.meets init config) :
    c.inv config.store ∧ ∀ th ∈ config.threads, InFlight c guar post config.store th := by
  induction reached with
  | start => exact ⟨start, by simp⟩
  | @move config m _ allowed ih =>
      obtain ⟨inv, flying⟩ := ih
      cases m with
      | run thread => exact advance_inFlight quiet relyTrans trusted inv flying thread allowed
      | spawn request =>
          refine ⟨inv, fun th member => ?_⟩
          rcases List.mem_append.mp member with old | new
          · exact flying th old
          · rw [List.mem_singleton.mp new]
            exact ⟨config.store, quiet _, served request _ inv⟩

/-- The next statement of a request in flight keeps the request's guarantee. -/
theorem advance_guar {config : Config σ ρ ℓ ε α} (inv : c.inv config.store) {request : ρ}
    {p : Program σ ℓ ε α} (flying : InFlight c guar post config.store (request, p)) {thread : Nat}
    (found : config.threads[thread]? = some (request, p)) (allowed : config.Allows c.meets (.run thread)) :
    config.advance thread = config ∨ guar request config.store (config.advance thread).store := by
  unfold Config.advance
  rw [found]
  cases p with
  | pure value => exact .inl rfl
  | fail error => exact .inl rfl
  | stmt label write next =>
      obtain ⟨seen, relied, spec⟩ := flying
      exact .inr (spec config.store relied inv (allowed _ _ label found rfl)).2.1

theorem reachable_spec (c : Contract σ ℓ) (post : ρ → Except ε α → σ → Prop)
    (quiet : ∀ s, c.rely s s)
    (relyTrans : ∀ a b d, c.rely a b → c.rely b d → c.rely a d)
    (trusted : ∀ s t, c.guar s t → c.rely s t) {init : σ} (start : c.inv init)
    (served : ∀ request s, c.inv s → (serve request).Spec c s (post request))
    {config : Config σ ρ ℓ ε α} (reached : Reachable serve c.meets init config) :
    c.inv config.store ∧ ∀ th ∈ config.threads, InFlight c (fun _ => c.guar) post config.store th :=
  reachable_each c (fun _ => c.guar) post quiet relyTrans (fun _ => trusted) start served reached

/-- An invariant that every statement of every request keeps, wherever it may be taken. -/
theorem reachable_only {allowed : ℓ → (σ → σ) → Prop} {meets : ℓ → σ → Prop} (inv : σ → Prop)
    (served : ∀ request, (serve request).Only allowed)
    (keeps : ∀ label write, allowed label write → ∀ s, inv s → meets label s → inv (write s))
    {init : σ} (start : inv init) {config : Config σ ρ ℓ ε α}
    (reached : Reachable serve meets init config) : inv config.store := by
  let anyone : Contract σ ℓ := ⟨inv, fun _ _ => True, fun _ _ => True, meets⟩
  refine (reachable_spec anyone (fun _ _ _ => True) (fun _ => trivial) (fun _ _ _ _ _ => trivial)
    (fun _ _ _ => trivial) start ?_ reached).1
  intro request s kept
  refine (Program.Only.spec (c := anyone) (fun _ _ => True) (fun _ _ _ _ _ => trivial)
    (fun _ => trivial) (fun _ _ _ => trivial) (fun _ _ _ => trivial) ?_ (served request) kept).mono
      fun _ _ _ => trivial
  exact fun label write ok t invT met => ⟨keeps label write ok t invT met, trivial⟩

end RelyGuarantee

end OmarchyPool.Lib
