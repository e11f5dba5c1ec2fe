/-
# OmarchyPool.Agent.Owner -- the documents the owner's passkey signed

The pool relays two orders that only the owner's passkey can give: a widening of the envelope and
the agent keys.  The host checks the document against the passkey pinned at it, writes the
document's version into its record before it changes anything, and writes into the record which
order it took last after it did.  The process may die before any of these writes and any of them
may fail.

The readers of JSON, of times, of agent.toml and of an assertion are parameters of the model.
-/
import Mathlib.Data.List.Basic
import Mathlib.Data.List.Pairwise
import Mathlib.Order.Nat

namespace OmarchyPool.Agent.Owner

set_option autoImplicit false

/-! ## Documents and the record -/

def schemaName : String := "omarchy-agent/owner/1"
def docMax : Nat := 32 * 1024
def skewS : Int := 300
def lifeMaxS : Int := 2 * 3600

/-- What the owner signs over the pool's relay. -/
inductive Act where
  | widenEnvelope
  | setAgentKeys
  deriving DecidableEq

def Act.name : Act → String
  | .widenEnvelope => "widen-envelope"
  | .setAgentKeys => "set-agent-keys"

/-- The document as far as its checks read it; `login` is the source's `by`. -/
structure Doc where
  schema : String
  act : String
  host : String
  version : Option Nat
  issuedAt : String
  notAfter : String
  login : String

/-- The owner's passkey as pinned at this host. -/
structure Pinned where
  host : String
  credential : String
  publicKey : String
  rpId : String
  origin : String
  counter : Nat
  deriving DecidableEq

structure Taken where
  order : String
  doc : String
  deriving DecidableEq

/-- `state/owner.json`. -/
structure Record where
  version : Nat
  passkey : Option Pinned
  taken : Option Taken
  deriving DecidableEq

structure Assertion where
  credential : String
  clientData : String
  authenticatorData : String
  signature : String

structure Expected where
  challenge : String
  origin : String
  rpId : String

/-- What reads what the pool relays and what agent.toml holds. -/
structure Reader where
  parse : String → Option Doc
  unixTime : String → Option Int
  /-- The SHA-256 of a document, base64url. -/
  challengeOf : String → String
  /-- The assertion checked against a pinned key: the authenticator's counter. -/
  verify : String → Assertion → Expected → Except String Nat
  /-- agent.toml's text with a document's widening, and what it changes of it. -/
  widen : String → String → Except String (String × List String)
  /-- agent.env's text with the keys set or taken out. -/
  mergeAgentEnv : String → List (String × Option String) → Except String String

inductive Refusal where
  | tooLong
  | unreadable
  | schema
  | act
  | host
  | issuedAt
  | notAfter
  | ahead
  | expired
  | lives
  | login
  | noPasskey
  | pinnedForAnother
  | otherCredential
  | assertion (why : String)
  | noVersion
  | replay
  | counter
  | envelope (why : String)
  | keys (why : String)
  | write
  deriving DecidableEq

def loginByte (c : Char) : Bool := c.isAlphanum || c = '-'

/-- The document's checks but the signature. -/
def readDoc (R : Reader) (bytes : String) (act : Act) (host : String) (now : Int) :
    Except Refusal Doc :=
  if bytes.utf8ByteSize > docMax then .error .tooLong
  else
    match R.parse bytes with
    | none => .error .unreadable
    | some doc =>
        if doc.schema ≠ schemaName then .error .schema
        else if doc.act ≠ act.name then .error .act
        else if doc.host ≠ host then .error .host
        else
          match R.unixTime doc.issuedAt, R.unixTime doc.notAfter with
          | none, _ => .error .issuedAt
          | some _, none => .error .notAfter
          | some issued, some notAfter =>
              if issued > now + skewS then .error .ahead
              else if notAfter ≤ now then .error .expired
              else if notAfter - issued > lifeMaxS ∨ notAfter < issued then .error .lives
              else if doc.login = "" ∨ doc.login.utf8ByteSize > 39 ∨
                  doc.login.toList.all loginByte = false then .error .login
              else .ok doc

/-- A signed document checked against the pinned passkey: the document and the counter. -/
def verifySigned (R : Reader) (rec : Record) (doc : String) (a : Assertion) (act : Act)
    (host : String) (now : Int) : Except Refusal (Doc × Nat) :=
  match rec.passkey with
  | none => .error .noPasskey
  | some p =>
      if p.host ≠ host then .error .pinnedForAnother
      else if a.credential ≠ p.credential then .error .otherCredential
      else
        match R.verify p.publicKey a ⟨R.challengeOf doc, p.origin, p.rpId⟩ with
        | .error why => .error (.assertion why)
        | .ok counter =>
            match readDoc R doc act host now with
            | .error why => .error why
            | .ok d =>
                match d.version with
                | none => .error .noVersion
                | some v =>
                    if v ≤ rec.version then .error .replay
                    else if (counter ≠ 0 ∨ p.counter ≠ 0) ∧ counter ≤ p.counter then
                      .error .counter
                    else .ok (d, counter)

/-- Whether `order` carrying `doc` is the last one whose change this host made. -/
def Record.takenAlready (R : Reader) (rec : Record) (order doc : String) : Bool :=
  rec.taken = some ⟨order, R.challengeOf doc⟩

/-- The version and the counter of a document that is about to be taken. -/
def Record.moved (rec : Record) (d : Doc) (counter : Nat) : Record :=
  { rec with
    version := d.version.getD rec.version
    passkey := rec.passkey.map fun p => { p with counter := counter } }

def Record.took (R : Reader) (rec : Record) (order doc : String) : Record :=
  { rec with taken := some ⟨order, R.challengeOf doc⟩ }

/-! ## The files -/

/-- What stands where `agent.env` goes. -/
inductive KeysFile where
  | absent
  | emptyDir
  | fullDir
  | link
  | file (text : String)
  deriving DecidableEq

structure Files where
  record : Record
  toml : String
  keys : KeysFile
  capacity : Option String
  deriving DecidableEq

/-- The change a document makes, with the version it carries. -/
structure Change where
  act : Act
  doc : String
  version : Nat
  deriving DecidableEq

inductive Write where
  | record (rec : Record)
  | toml (text : String) (change : Change)
  /-- agent.toml's mode put back. -/
  | mode
  | capacity (text : Option String)
  | makeDir
  /-- An empty directory in the place of `agent.env` removed. -/
  | clear
  | env (text : String) (change : Change)

def Write.run (f : Files) : Write → Files
  | .record rec => { f with record := rec }
  | .toml text _ => { f with toml := text }
  | .capacity text => { f with capacity := text.or f.capacity }
  | .clear => if f.keys = .emptyDir then { f with keys := .absent } else f
  | .env text _ => { f with keys := .file text }
  | .mode | .makeDir => f

def Write.change? : Write → Option Change
  | .toml _ change | .env _ change => some change
  | .record _ | .mode | .capacity _ | .makeDir | .clear => none

def Files.after (f : Files) (writes : List Write) : Files := writes.foldl Write.run f

/-! ## Taking an order -/

structure Signed where
  doc : String
  assertion : Assertion

/-- What the host answers while an order is taken. -/
structure Answers where
  now : Int
  /-- `run/capacity.json` counted under the new envelope, where it is counted. -/
  count : Except String (Option String)
  /-- The document's keys opened with the host's seal key. -/
  opened : Except String (List (String × Option String))
  /-- GitHub on a token's scopes. -/
  githubScopes : String → Except String Unit

inductive End where
  | done
  | refused (why : Refusal)
  | died
  deriving DecidableEq

/-- The writes of an order in their order, whether one that fails refuses it, and the answer when
all went through. -/
structure Plan where
  writes : List (Write × Bool)
  answer : End

def Plan.nothing (answer : End) : Plan := ⟨[], answer⟩

def widenEnvelope (R : Reader) (host : String) (f : Files) (order : String) (s : Signed)
    (w : Answers) : Plan :=
  if f.record.takenAlready R order s.doc then .nothing .done
  else
    match verifySigned R f.record s.doc s.assertion .widenEnvelope host w.now with
    | .error why => .nothing (.refused why)
    | .ok (doc, counter) =>
        match R.widen s.doc f.toml with
        | .error why => .nothing (.refused (.envelope why))
        | .ok (new, _) =>
            match w.count with
            | .error why => .nothing (.refused (.envelope why))
            | .ok count =>
                let moved := f.record.moved doc counter
                ⟨[(.record moved, true),
                  (.toml new ⟨.widenEnvelope, s.doc, moved.version⟩, true),
                  -- agent.toml holds the widening: what fails from here on is said, not refused.
                  (.record (moved.took R order s.doc), false),
                  (.mode, false),
                  (.capacity count, false)], .done⟩

/-- The text `agent.env` holds; a link and a directory with something in it are refused. -/
def keysText : KeysFile → Except String String
  | .absent | .emptyDir => .ok ""
  | .file text => .ok text
  | .link => .error "a symbolic link"
  | .fullDir => .error "a directory with something in it"

/-- A GITHUB_TOKEN among the keys is asked of GitHub. -/
def githubToken (w : Answers) (keys : List (String × Option String)) : Except String Unit :=
  match keys.find? fun k => k.1 = "GITHUB_TOKEN" with
  | some (_, some token) => w.githubScopes token
  | some (_, none) | none => .ok ()

def newKeys (R : Reader) (f : Files) (w : Answers) : Except String String := do
  let keys ← w.opened
  githubToken w keys
  let text ← keysText f.keys
  R.mergeAgentEnv text keys

def setAgentKeys (R : Reader) (host : String) (f : Files) (order : String) (s : Signed)
    (w : Answers) : Plan :=
  if f.record.takenAlready R order s.doc then .nothing .done
  else
    match verifySigned R f.record s.doc s.assertion .setAgentKeys host w.now with
    | .error why => .nothing (.refused why)
    | .ok (doc, counter) =>
        match newKeys R f w with
        | .error why => .nothing (.refused (.keys why))
        | .ok new =>
            let moved := f.record.moved doc counter
            ⟨[(.record moved, true), (.makeDir, true), (.clear, true),
              (.env new ⟨.setAgentKeys, s.doc, moved.version⟩, true),
              (.record (moved.took R order s.doc), false)], .done⟩

/-! ## Failures, deaths and runs -/

/-- What becomes of a write, or of the answer after the last. -/
inductive Fate where
  | through
  | fails
  | dies
  deriving DecidableEq

/-- The writes that went through, and how it ended. -/
def carry : List (Write × Bool) → End → List Fate → List Write × End
  | [], answer, fates => ([], if fates.headD .through = .dies then .died else answer)
  | (write, must) :: rest, answer, fates =>
      match fates.headD .through with
      | .through =>
          let (writes, ended) := carry rest answer fates.tail
          (write :: writes, ended)
      | .fails => if must then ([], .refused .write) else carry rest answer fates.tail
      | .dies => ([], .died)

/-- An order as it reaches the host, what the host answers, and what becomes of each write. -/
structure Asked where
  act : Act
  order : String
  signed : Signed
  answers : Answers
  fates : List Fate

def plan (R : Reader) (host : String) (f : Files) (e : Asked) : Plan :=
  match e.act with
  | .widenEnvelope => widenEnvelope R host f e.order e.signed e.answers
  | .setAgentKeys => setAgentKeys R host f e.order e.signed e.answers

def take (R : Reader) (host : String) (f : Files) (e : Asked) : List Write × End :=
  carry (plan R host f e).writes (plan R host f e).answer e.fates

def Files.next (R : Reader) (host : String) (f : Files) (e : Asked) : Files :=
  f.after (take R host f e).1

def Files.run (R : Reader) (host : String) (f : Files) (events : List Asked) : Files :=
  events.foldl (Files.next R host) f

/-- The changes made in a run, in their order. -/
def changes (R : Reader) (host : String) : Files → List Asked → List Change
  | _, [] => []
  | f, e :: rest =>
      (take R host f e).1.filterMap Write.change? ++ changes R host (f.next R host e) rest

/-! ## What a document that passes is -/

section Orders

variable {R : Reader} {host : String} {f : Files} {e : Asked}

theorem readDoc_ok {bytes : String} {act : Act} {now : Int} {doc : Doc}
    (reads : readDoc R bytes act host now = .ok doc) :
    R.parse bytes = some doc ∧ doc.act = act.name ∧ doc.host = host := by
  unfold readDoc at reads
  split at reads
  · cases reads
  split at reads
  · cases reads
  rename_i parsed
  split at reads
  · cases reads
  split at reads
  · cases reads
  rename_i sameAct
  split at reads
  · cases reads
  rename_i sameHost
  split at reads
  · cases reads
  · cases reads
  split at reads
  · cases reads
  split at reads
  · cases reads
  split at reads
  · cases reads
  split at reads
  · cases reads
  cases reads
  exact ⟨parsed, not_not.mp sameAct, not_not.mp sameHost⟩

/-- The pinned passkey `p` asserted the document for this host, with a version above the recorded
one. -/
structure Authentic (R : Reader) (host : String) (rec : Record) (e : Asked) (p : Pinned)
    (version counter : Nat) : Prop where
  pinned : rec.passkey = some p
  pinnedHere : p.host = host
  credential : e.signed.assertion.credential = p.credential
  asserted : R.verify p.publicKey e.signed.assertion
    ⟨R.challengeOf e.signed.doc, p.origin, p.rpId⟩ = .ok counter
  reads : ∃ doc, R.parse e.signed.doc = some doc ∧ doc.act = e.act.name ∧ doc.host = host ∧
    doc.version = some version
  above : rec.version < version
  counts : p.counter ≤ counter

theorem verifySigned_ok {rec : Record} {doc : Doc} {counter : Nat}
    (verified : verifySigned R rec e.signed.doc e.signed.assertion e.act host e.answers.now =
      .ok (doc, counter)) :
    ∃ p version, Authentic R host rec e p version counter ∧ doc.version = some version := by
  unfold verifySigned at verified
  split at verified
  · cases verified
  rename_i p pinned
  split at verified
  · cases verified
  rename_i pinnedHere
  split at verified
  · cases verified
  rename_i credential
  split at verified
  · cases verified
  rename_i asserted
  split at verified
  · cases verified
  rename_i reads
  split at verified
  · cases verified
  rename_i version carries
  split at verified
  · cases verified
  rename_i above
  split at verified
  · cases verified
  rename_i counts
  cases verified
  obtain ⟨parsed, act, here⟩ := readDoc_ok reads
  refine ⟨p, version, ⟨pinned, not_not.mp pinnedHere, not_not.mp credential, asserted,
    ⟨doc, parsed, act, here, carries⟩, Nat.lt_of_not_le above, ?_⟩, carries⟩
  -- Both counters are zero, or the assertion's is above.
  by_contra less
  exact counts ⟨Or.inr (by omega), by omega⟩

/-! ## What taking an order writes -/

/-- The writes after the version's: the record of the last taken, and one change. -/
structure Follows (R : Reader) (e : Asked) (moved : Record) (rest : List (Write × Bool)) :
    Prop where
  records : ∀ rec must, (.record rec, must) ∈ rest → rec = moved.took R e.order e.signed.doc
  taken : ∃ must, (.record (moved.took R e.order e.signed.doc), must) ∈ rest
  change : rest.filterMap (fun w => w.1.change?) = [⟨e.act, e.signed.doc, moved.version⟩]

def Record.advanced (rec : Record) (p : Pinned) (version counter : Nat) : Record :=
  { rec with version := version, passkey := some { p with counter := counter } }

theorem moved_eq {doc : Doc} {p : Pinned} {version counter : Nat}
    (authentic : Authentic R host f.record e p version counter)
    (carries : doc.version = some version) :
    f.record.moved doc counter = f.record.advanced p version counter := by
  unfold Record.moved
  rw [authentic.pinned, carries]
  rfl

/-- An order changes nothing, or an authentic document's version is written first. -/
theorem plan_cases : (∃ answer, plan R host f e = .nothing answer) ∨
    ∃ p version counter rest, Authentic R host f.record e p version counter ∧
      (plan R host f e).answer = .done ∧
      (plan R host f e).writes = (.record (f.record.advanced p version counter), true) :: rest ∧
      Follows R e (f.record.advanced p version counter) rest := by
  unfold plan
  split
  · rename_i act
    unfold widenEnvelope
    split
    · exact Or.inl ⟨_, rfl⟩
    split
    · exact Or.inl ⟨_, rfl⟩
    rename_i doc counter verified
    rw [← act] at verified
    obtain ⟨p, version, authentic, carries⟩ := verifySigned_ok verified
    split
    · exact Or.inl ⟨_, rfl⟩
    split
    · exact Or.inl ⟨_, rfl⟩
    rw [moved_eq authentic carries]
    refine Or.inr ⟨p, version, counter, _, authentic, rfl, rfl, ⟨?_, ?_, ?_⟩⟩
    · intro rec must mem
      simp only [List.mem_cons, Prod.mk.injEq, List.not_mem_nil, or_false, reduceCtorEq, false_and,
        false_or, Write.record.injEq] at mem
      exact mem.1
    · exact ⟨false, by simp⟩
    · simp [Write.change?, act]
  · rename_i act
    unfold setAgentKeys
    split
    · exact Or.inl ⟨_, rfl⟩
    split
    · exact Or.inl ⟨_, rfl⟩
    rename_i doc counter verified
    rw [← act] at verified
    obtain ⟨p, version, authentic, carries⟩ := verifySigned_ok verified
    split
    · exact Or.inl ⟨_, rfl⟩
    rw [moved_eq authentic carries]
    refine Or.inr ⟨p, version, counter, _, authentic, rfl, rfl, ⟨?_, ?_, ?_⟩⟩
    · intro rec must mem
      simp only [List.mem_cons, Prod.mk.injEq, List.not_mem_nil, or_false, reduceCtorEq, false_and,
        false_or, Write.record.injEq] at mem
      exact mem.1
    · exact ⟨false, by simp⟩
    · simp [Write.change?, act]

theorem carry_cons (write : Write) (must : Bool) (rest : List (Write × Bool)) (answer : End)
    (fates : List Fate) : carry ((write, must) :: rest) answer fates =
      match fates.headD .through with
      | .through =>
          (write :: (carry rest answer fates.tail).1, (carry rest answer fates.tail).2)
      | .fails => if must then ([], .refused .write) else carry rest answer fates.tail
      | .dies => ([], .died) := rfl

theorem carry_sublist (writes : List (Write × Bool)) (answer : End) (fates : List Fate) :
    (carry writes answer fates).1.Sublist (writes.map Prod.fst) := by
  induction writes generalizing fates with
  | nil => exact List.Sublist.refl _
  | cons first rest ih =>
      obtain ⟨write, must⟩ := first
      rw [carry_cons]
      split
      · exact (ih fates.tail).cons_cons write
      · split
        · exact List.nil_sublist _
        · exact (ih fates.tail).cons write
      · exact List.nil_sublist _

/-- A first write that must go through does, or nothing is written. -/
theorem carry_first (write : Write) (rest : List (Write × Bool)) (answer : End)
    (fates : List Fate) :
    (carry ((write, true) :: rest) answer fates).1 = [] ∨
      carry ((write, true) :: rest) answer fates =
        (write :: (carry rest answer fates.tail).1, (carry rest answer fates.tail).2) := by
  rw [carry_cons]
  split
  · exact Or.inr rfl
  · exact Or.inl rfl
  · exact Or.inl rfl

/-- Where every record written is `rec`, the record is as it was or `rec`. -/
theorem after_record {rec : Record} (writes : List Write)
    (only : ∀ other, .record other ∈ writes → other = rec) :
    (f.after writes).record = f.record ∨ (f.after writes).record = rec := by
  induction writes generalizing f with
  | nil => exact Or.inl rfl
  | cons write rest ih =>
      have later := ih (f := write.run f)
        (fun other mem => only other (List.mem_cons_of_mem _ mem))
      show ((write.run f).after rest).record = _ ∨ ((write.run f).after rest).record = _
      by_cases written : ∃ other, write = .record other
      · obtain ⟨other, rfl⟩ := written
        have same : other = rec := only other List.mem_cons_self
        subst same
        exact Or.inr (later.elim id id)
      · have same : (write.run f).record = f.record := by
          cases write with
          | record other => exact absurd ⟨other, rfl⟩ written
          | clear =>
              unfold Write.run
              dsimp only
              split <;> rfl
          | _ => rfl
        rw [same] at later
        exact later

/-- What taking an order does: it writes nothing, or the document was authentic, its version and
counter are in the record, and it made its change at most once. -/
theorem take_cases : (take R host f e).1 = [] ∨
    ∃ p version counter, Authentic R host f.record e p version counter ∧
      (f.next R host e).record.version = version ∧
      (f.next R host e).record.passkey = some { p with counter := counter } ∧
      ((take R host f e).1.filterMap Write.change?).Sublist
        [⟨e.act, e.signed.doc, version⟩] := by
  unfold Files.next take
  rcases @plan_cases R host f e with ⟨answer, none⟩ | ⟨p, version, counter, rest, authentic, done,
    writes, follows⟩
  · rw [none]
    exact Or.inl (List.sublist_nil.mp (carry_sublist [] answer e.fates))
  · rw [writes]
    rcases carry_first (.record (f.record.advanced p version counter)) rest
      (plan R host f e).answer e.fates with none | first
    · exact Or.inl none
    refine Or.inr ⟨p, version, counter, authentic, ?_⟩
    rw [first]
    have sub := carry_sublist rest (plan R host f e).answer e.fates.tail
    generalize (carry rest (plan R host f e).answer e.fates.tail).1 = later at sub
    have kept := @after_record { f with record := f.record.advanced p version counter }
      ((f.record.advanced p version counter).took R e.order e.signed.doc) later (by
        intro other mem
        obtain ⟨⟨write, must⟩, inRest, same⟩ := List.mem_map.mp (sub.subset mem)
        subst same
        exact follows.records other must inRest)
    have changed : (later.filterMap Write.change?).Sublist [⟨e.act, e.signed.doc, version⟩] := by
      have whole := sub.filterMap Write.change?
      rw [List.filterMap_map] at whole
      rw [show rest.filterMap (Write.change? ∘ Prod.fst) = _ from follows.change] at whole
      exact whole
    refine ⟨?_, ?_, changed⟩
    · show (Files.after { f with record := f.record.advanced p version counter } later).record.version
        = version
      rcases kept with same | same <;> rw [same] <;> rfl
    · show (Files.after { f with record := f.record.advanced p version counter } later).record.passkey
        = _
      rcases kept with same | same <;> rw [same] <;> rfl

/-- The last order taken, seen again, is answered and writes nothing. -/
theorem take_again (last : f.record.taken = some ⟨e.order, R.challengeOf e.signed.doc⟩) :
    (take R host f e).1 = [] ∧ ((take R host f e).2 = .done ∨ (take R host f e).2 = .died) := by
  have already : f.record.takenAlready R e.order e.signed.doc = true := decide_eq_true last
  have planned : plan R host f e = .nothing .done := by
    unfold plan
    split
    · unfold widenEnvelope
      rw [if_pos already]
    · unfold setAgentKeys
      rw [if_pos already]
  unfold take
  rw [planned]
  refine ⟨rfl, ?_⟩
  show (if e.fates.headD .through = .dies then End.died else .done) = .done ∨ _
  split
  · exact Or.inr (if_pos (by assumption))
  · exact Or.inl rfl

theorem carry_all (writes : List (Write × Bool)) (answer : End) :
    carry writes answer [] = (writes.map Prod.fst, answer) := by
  induction writes with
  | nil => rfl
  | cons first rest ih =>
      obtain ⟨write, must⟩ := first
      rw [carry_cons]
      show (write :: (carry rest answer []).1, (carry rest answer []).2) = _
      rw [ih]
      rfl

theorem after_append (first second : List Write) :
    f.after (first ++ second) = (f.after first).after second := List.foldl_append

/-- With no failure and no death, an order that changes something is recorded as the last one
taken. -/
theorem take_whole (calm : e.fates = []) (writes : (take R host f e).1 ≠ []) :
    (take R host f e).2 = .done ∧
      (f.next R host e).record.taken = some ⟨e.order, R.challengeOf e.signed.doc⟩ := by
  unfold Files.next take at *
  rw [calm, carry_all] at *
  rcases @plan_cases R host f e with ⟨answer, none⟩ | ⟨p, version, counter, rest, authentic, done,
    shape, follows⟩
  · rw [none] at writes
    exact absurd rfl writes
  · refine ⟨done, ?_⟩
    rw [shape]
    obtain ⟨must, inRest⟩ := follows.taken
    obtain ⟨early, late, split⟩ := List.append_of_mem inRest
    have only : ∀ other, .record other ∈ late.map Prod.fst →
        other = (f.record.advanced p version counter).took R e.order e.signed.doc := by
      intro other mem
      obtain ⟨⟨write, must⟩, inLate, same⟩ := List.mem_map.mp mem
      subst same
      exact follows.records other must (by rw [split]; simp [inLate])
    rw [split]
    show (f.after (_ :: (early ++ (_, must) :: late).map Prod.fst)).record.taken = _
    rw [List.map_append, List.map_cons, ← List.cons_append, after_append]
    generalize f.after (_ :: early.map Prod.fst) = g
    show ((Write.run g (.record _)).after (late.map Prod.fst)).record.taken = _
    rcases after_record (f := Write.run g (.record _)) (late.map Prod.fst) only with same | same
    · rw [same]
      rfl
    · rw [same]
      rfl

/-! ## Runs -/

theorem next_version_le : f.record.version ≤ (f.next R host e).record.version := by
  rcases @take_cases R host f e with none | ⟨p, version, counter, authentic, moved, -, -⟩
  · unfold Files.next
    rw [none]
    exact le_refl _
  · rw [moved]
    exact le_of_lt authentic.above

/-- The changes of one order: its document's, with the version that is recorded then. -/
theorem take_change {c : Change} (mem : c ∈ (take R host f e).1.filterMap Write.change?) :
    c.act = e.act ∧ c.doc = e.signed.doc ∧ f.record.version < c.version ∧
      (f.next R host e).record.version = c.version ∧
      ∃ doc, R.parse c.doc = some doc ∧ doc.version = some c.version := by
  rcases @take_cases R host f e with none | ⟨p, version, counter, authentic, moved, -, sub⟩
  · rw [none] at mem
    cases mem
  · cases List.mem_singleton.mp (sub.subset mem)
    obtain ⟨doc, parsed, -, -, carries⟩ := authentic.reads
    exact ⟨rfl, rfl, authentic.above, moved, doc, parsed, carries⟩

theorem take_change_once : ((take R host f e).1.filterMap Write.change?).length ≤ 1 := by
  rcases @take_cases R host f e with none | ⟨p, version, counter, authentic, moved, -, sub⟩
  · rw [none]
    exact Nat.zero_le _
  · exact sub.length_le

theorem changes_increase (f : Files) (events : List Asked) :
    (∀ c ∈ changes R host f events, f.record.version < c.version) ∧
      (changes R host f events).Pairwise (fun c d => c.version < d.version) := by
  induction events generalizing f with
  | nil => exact ⟨fun _ mem => (by cases mem), List.Pairwise.nil⟩
  | cons e rest ih =>
      obtain ⟨above, ordered⟩ := ih (f.next R host e)
      unfold changes
      refine ⟨?_, List.pairwise_append.mpr ⟨?_, ordered, ?_⟩⟩
      · intro c mem
        rcases List.mem_append.mp mem with here | later
        · exact (take_change here).2.2.1
        · exact lt_of_le_of_lt next_version_le (above c later)
      · have once := @take_change_once R host f e
        generalize (take R host f e).1.filterMap Write.change? = made at once
        match made with
        | [] => exact List.Pairwise.nil
        | [_] => exact List.pairwise_singleton _ _
      · intro c here d later
        rw [← (take_change here).2.2.2.1]
        exact above d later

theorem changes_read (f : Files) (events : List Asked) {c : Change}
    (mem : c ∈ changes R host f events) :
    ∃ doc, R.parse c.doc = some doc ∧ doc.version = some c.version := by
  induction events generalizing f with
  | nil => cases mem
  | cons e rest ih =>
      unfold changes at mem
      rcases List.mem_append.mp mem with here | later
      · exact (take_change here).2.2.2.2
      · exact ih _ later

/-- Two changes of one document would carry one version. -/
theorem changes_once (f : Files) (events : List Asked) (doc : String) :
    (changes R host f events).countP (fun c => c.doc = doc) ≤ 1 := by
  have ordered := (@changes_increase R host f events).2
  have reads : ∀ c ∈ changes R host f events, _ := fun c mem => changes_read f events mem
  rw [List.countP_eq_length_filter]
  have kept := ordered.filter (fun c => decide (c.doc = doc))
  have of : ∀ c ∈ (changes R host f events).filter (fun c => decide (c.doc = doc)),
      ∃ d, R.parse doc = some d ∧ d.version = some c.version := by
    intro c mem
    obtain ⟨made, same⟩ := List.mem_filter.mp mem
    rw [← of_decide_eq_true same]
    exact reads c made
  generalize (changes R host f events).filter (fun c => decide (c.doc = doc)) = made at kept of
  match made with
  | [] => exact Nat.zero_le _
  | [_] => exact le_refl _
  | c :: d :: _ =>
      obtain ⟨first, parsed, version⟩ := of c List.mem_cons_self
      obtain ⟨second, parsed', version'⟩ := of d (List.mem_cons_of_mem _ List.mem_cons_self)
      have less : c.version < d.version := (List.pairwise_cons.mp kept).1 d List.mem_cons_self
      rw [parsed] at parsed'
      cases parsed'
      have same : c.version = d.version := Option.some.inj (version.symm.trans version')
      exact absurd same (ne_of_lt less)

/-- The same passkey, its counter not lower. -/
def Counted (rec rec' : Record) : Prop :=
  ∀ p, rec.passkey = some p →
    ∃ counter, rec'.passkey = some { p with counter := counter } ∧ p.counter ≤ counter

theorem counted_next : Counted f.record (f.next R host e).record := by
  intro p pinned
  rcases @take_cases R host f e with none | ⟨q, version, counter, authentic, -, moved, -⟩
  · unfold Files.next
    rw [none]
    exact ⟨p.counter, pinned, le_refl _⟩
  · have same := authentic.pinned
    rw [pinned] at same
    cases same
    exact ⟨counter, moved, authentic.counts⟩

theorem counted_run (f : Files) (events : List Asked) :
    Counted f.record (f.run R host events).record := by
  induction events generalizing f with
  | nil => exact fun p pinned => ⟨p.counter, pinned, le_refl _⟩
  | cons e rest ih =>
      intro p pinned
      obtain ⟨counter, moved, counts⟩ := @counted_next R host f e p pinned
      obtain ⟨later, moved', counts'⟩ := ih (f.next R host e) _ moved
      exact ⟨later, moved', le_trans counts counts'⟩

/-- A document at or below the recorded version writes nothing, whichever order carries it. -/
theorem take_old {doc : Doc} {version : Nat} (reads : R.parse e.signed.doc = some doc)
    (carries : doc.version = some version) (old : version ≤ f.record.version) :
    (take R host f e).1 = [] := by
  rcases @take_cases R host f e with none | ⟨p, other, counter, authentic, -, -, -⟩
  · exact none
  · obtain ⟨read, parsed, -, -, carried⟩ := authentic.reads
    rw [reads] at parsed
    cases parsed
    have same : version = other := Option.some.inj (carries.symm.trans carried)
    have above := authentic.above
    omega

end Orders

/-! ## A document takes effect once -/

/-- The passkey with this key asserted this challenge there, with its owner present. -/
abbrev Maker := String → Expected → Prop

/-- The assertion verifier takes only what the passkey made. -/
def Sound (R : Reader) (Made : Maker) : Prop :=
  ∀ key assertion expected counter, R.verify key assertion expected = .ok counter →
    Made key expected

/-- What signed documents do at this host, from the files `f`, over the orders `events`. -/
structure TakesEffectOnce (R : Reader) (host : String) (Made : Maker) (f : Files)
    (events : List Asked) : Prop where
  /-- Each document makes its change at most once. -/
  once : ∀ doc, (changes R host f events).countP (fun c => c.doc = doc) ≤ 1
  /-- The versions of the changes increase, of either kind and of both. -/
  increase : (changes R host f events).Pairwise (fun c d => c.version < d.version)
  /-- With every change the recorded version rises to the document's. -/
  recorded : ∀ g e, g.record.version ≤ (g.next R host e).record.version ∧
    ∀ c ∈ (take R host g e).1.filterMap Write.change?,
      g.record.version < c.version ∧ (g.next R host e).record.version = c.version
  /-- The counter of the pinned passkey never decreases. -/
  counter : Counted f.record (f.run R host events).record
  /-- What was not signed by the passkey pinned here, for this host, changes nothing. -/
  signed : ∀ g e, (take R host g e).1 ≠ [] → ∃ p doc, g.record.passkey = some p ∧ p.host = host ∧
    e.signed.assertion.credential = p.credential ∧
    Made p.publicKey ⟨R.challengeOf e.signed.doc, p.origin, p.rpId⟩ ∧
    R.parse e.signed.doc = some doc ∧ doc.host = host
  /-- The order the record names as taken last is answered as done, and no file changes. -/
  again : ∀ g e, g.record.taken = some ⟨e.order, R.challengeOf e.signed.doc⟩ →
    (take R host g e).1 = [] ∧ ((take R host g e).2 = .done ∨ (take R host g e).2 = .died)
  /-- That is the last order that was carried through. -/
  last : ∀ g e, e.fates = [] → (take R host g e).1 ≠ [] → (take R host g e).2 = .done ∧
    (g.next R host e).record.taken = some ⟨e.order, R.challengeOf e.signed.doc⟩
  /-- A document at or below the recorded version changes no file. -/
  old : ∀ (g : Files) e doc version, R.parse e.signed.doc = some doc →
    doc.version = some version → version ≤ g.record.version → (take R host g e).1 = []

theorem signed_takes_effect_once (R : Reader) (host : String) (Made : Maker) (sound : Sound R Made)
    (f : Files) (events : List Asked) : TakesEffectOnce R host Made f events := by
  refine ⟨changes_once f events, (changes_increase f events).2, ?_, counted_run f events, ?_,
    fun _ _ => take_again, fun _ _ => take_whole, fun _ _ _ _ => take_old⟩
  · intro g e
    refine ⟨next_version_le, ?_⟩
    intro c mem
    obtain ⟨-, -, above, moved, -⟩ := take_change mem
    exact ⟨above, moved⟩
  · intro g e writes
    rcases @take_cases R host g e with none | ⟨p, version, counter, authentic, -, -, -⟩
    · exact absurd none writes
    · obtain ⟨doc, parsed, -, here, -⟩ := authentic.reads
      exact ⟨p, doc, authentic.pinned, authentic.pinnedHere, authentic.credential,
        sound _ _ _ _ authentic.asserted, parsed, here⟩

/-! ## Two widenings -/

/-- The passkey signed both documents. -/
def signedBoth : Maker := fun key expected =>
  key = "key" ∧ (expected.challenge = "one" ∨ expected.challenge = "two")

/-- Two documents of the host `h`, read by name, and a verifier of the passkey's signatures. -/
def twoDocs : Reader where
  parse := fun bytes =>
    if bytes = "one" then some ⟨schemaName, "widen-envelope", "h", some 1, "0", "60", "owner"⟩
    else if bytes = "two" then
      some ⟨schemaName, "widen-envelope", "h", some 2, "0", "60", "owner"⟩
    else none
  unixTime := fun text => if text = "0" then some 0 else some 60
  challengeOf := id
  verify := fun key a expected =>
    if key = "key" ∧ a.signature = expected.challenge ∧
        (expected.challenge = "one" ∨ expected.challenge = "two") then .ok 0
    else .error "the signature is not the pinned passkey's"
  widen := fun doc _ => .ok (doc, [])
  mergeAgentEnv := fun text _ => .ok text

def pinnedHost : Files where
  record := ⟨0, some ⟨"h", "credential", "key", "rp", "origin", 0⟩, none⟩
  toml := ""
  keys := .absent
  capacity := none

/-- The order `order` carries `doc` at the start of the clock, and meets these fates. -/
def widening (order doc : String) (fates : List Fate) : Asked where
  act := .widenEnvelope
  order := order
  signed := ⟨doc, "credential", "", "", doc⟩
  answers := ⟨10, .ok none, .ok [], fun _ => .ok ()⟩
  fates := fates

/-- The first order is carried through, and comes back after the second. -/
def replayed : List Asked :=
  [widening "a" "one" [], widening "a" "one" [], widening "b" "two" [], widening "a" "one" []]

theorem signed_takes_effect_once_replayed :
    changes twoDocs "h" pinnedHost replayed =
        [⟨.widenEnvelope, "one", 1⟩, ⟨.widenEnvelope, "two", 2⟩] ∧
      TakesEffectOnce twoDocs "h" signedBoth pinnedHost replayed := by
  refine ⟨by decide, signed_takes_effect_once twoDocs "h" signedBoth ?_ pinnedHost replayed⟩
  intro key assertion expected counter verified
  simp only [twoDocs] at verified
  split at verified
  · rename_i made
    exact ⟨made.1, made.2.2⟩
  · cases verified

/-- The process dies when the first order is taken and recorded, before its answer; the second is
taken; the first, seen again, is refused. -/
theorem taken_order_refused :
    ((pinnedHost.next twoDocs "h" (widening "a" "one" [.through, .through, .through, .through,
        .through, .dies])).record.taken = some ⟨"a", "one"⟩) ∧
      (take twoDocs "h" (pinnedHost.run twoDocs "h"
        [widening "a" "one" [.through, .through, .through, .through, .through, .dies],
          widening "b" "two" []]) (widening "a" "one" [])).2 = .refused .replay := by
  decide

end OmarchyPool.Agent.Owner
