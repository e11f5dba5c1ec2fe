/-
# OmarchyPool.Agent.AgentEnv -- the agent keys a document sets, merged into the file

`mergeAgentEnv` goes over the file's lines: a line that gives a key the document names is written again with
its value, or left out; every other line is written as it is read; a key the file lacks goes at the end.

What the merged file gives is what the old one gave with those keys set or taken out, every other line stands
in it in order, and merging again changes nothing, exactly when three things hold (`holdsSigned_iff`): no value
stands in quotes, which the reader takes off; no line kept ends in a carriage return, which is read as part of
the line's end once it is written; and something is written at all, an empty file being given a comment.
-/
import Mathlib.Data.List.Nodup
import OmarchyPool.Agent.Secrets

namespace OmarchyPool.Agent.Secrets

open OmarchyPool.Lib OmarchyPool.Manifest

set_option autoImplicit false

/-! ## `merge_agent_env` -/

/-- `AGENT_KEYS`. -/
def agentKeys : List Text :=
  ["ANTHROPIC_API_KEY".toList, "CLAUDE_CODE_OAUTH_TOKEN".toList, "OPENAI_API_KEY".toList, "GEMINI_API_KEY".toList,
    "XAI_API_KEY".toList, "GITHUB_TOKEN".toList]

/-- The keys a document sets (`some`) or takes out (`none`). -/
abbrev Keys := List (Text × Option Text)

/-- The first line of a file that was empty. -/
def preamble : Text :=
  "# The agent keys (#328: set from the site, sealed to this host): the agent sidecars' only, read-only.".toList

/-- The key whose line this is. -/
def keyAt (keys : Keys) (line : Text) : Option (Text × Option Text) :=
  let t := trim line
  match (cutAt ['='] t).bind fun split => keys.find? (·.1 = keyName split.1) with
  | some key => if t.head? = some '#' then none else some key
  | none => none

/-- The loop over the lines: what is written, and the keys seen. -/
def mergeLine (keys : Keys) : Text × List Text → Text → Text × List Text
  | (out, seen), line =>
      match keyAt keys line with
      | some (k, some v) => (out ++ (k ++ '=' :: (v ++ ['\n'])), seen ++ [k])
      | some (k, none) => (out, seen ++ [k])
      | none => (out ++ (line ++ ['\n']), seen)

/-- The loop over the keys: what the file lacks. -/
def appendKey (seen : List Text) (out : Text) : Text × Option Text → Text
  | (k, some v) => if seen.contains k then out else out ++ (k ++ '=' :: (v ++ ['\n']))
  | (_, none) => out

def mergeAgentEnv (text : Text) (keys : Keys) : Except ReadError Text :=
  match parse text with
  | .error e => .error e
  | .ok _ =>
      let (out, seen) := (lines text).foldl (mergeLine keys) ([], [])
      let out := if text = [] then out ++ (preamble ++ ['\n']) else out
      .ok (keys.foldl (appendKey seen) out)

/-! ## What is asked -/

/-- Agent keys, each once, and each set to what a seal key opens to. -/
structure Asked (keys : Keys) : Prop where
  named : ∀ key ∈ keys, key.1 ∈ agentKeys
  once : (keys.map Prod.fst).Nodup
  sealed : ∀ k v, (k, some v) ∈ keys → Sealable v

/-- What an entry is replaced by, the values being read by `read`. -/
def replaced (read : Text → Text) (keys : Keys) (e : Text × Text) : Option (Text × Text) :=
  match keys.find? (·.1 = e.1) with
  | some (k, v) => v.map fun v => (k, read v)
  | none => some e

/-- What a key adds to the entries. -/
def added (read : Text → Text) (entries : List (Text × Text)) : Text × Option Text → Option (Text × Text)
  | (k, v) => if (entries.map Prod.fst).contains k then none else v.map fun v => (k, read v)

theorem added_of_mem {read : Text → Text} {entries : List (Text × Text)} {k : Text} {v : Option Text}
    (known : k ∈ entries.map Prod.fst) : added read entries (k, v) = none :=
  if_pos (List.contains_iff_mem.mpr known)

theorem added_of_not_mem {read : Text → Text} {entries : List (Text × Text)} {k : Text} {v : Option Text}
    (new : k ∉ entries.map Prod.fst) : added read entries (k, v) = v.map fun v => (k, read v) :=
  if_neg fun known => new (List.contains_iff_mem.mp known)

/-- The entries with the keys set, each in its place or at the end, or taken out. -/
def updatedAs (read : Text → Text) (keys : Keys) (entries : List (Text × Text)) : List (Text × Text) :=
  entries.filterMap (replaced read keys) ++ keys.filterMap (added read entries)

def updated (keys : Keys) (entries : List (Text × Text)) : List (Text × Text) := updatedAs id keys entries

/-- A line that gives none of the keys. -/
def isOther (keys : Keys) (line : Text) : Bool := (entry line).all fun e => keys.all fun key => key.1 != e.1

/-- The comments, the blank lines and the lines of other keys. -/
def others (keys : Keys) (text : Text) : List Text := (lines text).filter (isOther keys)

/-- The merged file gives what was signed, keeps every other line and is merged already. -/
def HoldsSigned (text : Text) (keys : Keys) (entries : List (Text × Text)) : Prop :=
  ∃ merged, mergeAgentEnv text keys = .ok merged ∧ parse merged = .ok (updated keys entries) ∧
    (others keys text).Sublist (lines merged) ∧ mergeAgentEnv merged keys = .ok merged

/-- No value in quotes, no other line with a carriage return at its end, and something to write. -/
structure Plain (text : Text) (keys : Keys) : Prop where
  unquoted : ∀ k v, (k, some v) ∈ keys → ¬ Quoted v
  noReturn : ∀ line ∈ others keys text, line.getLast? ≠ some '\r'
  leaves : text = [] ∨ others keys text ≠ [] ∨ ∃ k v, (k, some v) ∈ keys

/-! ## The lines that are written -/

/-- What a line of the file becomes. -/
def rewritten (keys : Keys) (line : Text) : Option Text :=
  match keyAt keys line with
  | some (k, v) => v.map (written k)
  | none => some line

/-- What a key is written as when no line gave it. -/
def lacking (seen : List Text) : Text × Option Text → Option Text
  | (k, v) => if seen.contains k then none else v.map (written k)

def seenIn (keys : Keys) (text : Text) : List Text := ((lines text).filterMap (keyAt keys)).map Prod.fst

def outLines (keys : Keys) (text : Text) : List Text :=
  (lines text).filterMap (rewritten keys) ++ (if text = [] then [preamble] else []) ++
    keys.filterMap (lacking (seenIn keys text))

theorem unlines_singleton (line : Text) : unlines [line] = line ++ ['\n'] := by
  simp [unlines]

theorem foldl_mergeLine (keys : Keys) (ls : List Text) (out : Text) (seen : List Text) :
    ls.foldl (mergeLine keys) (out, seen) =
      (out ++ unlines (ls.filterMap (rewritten keys)), seen ++ (ls.filterMap (keyAt keys)).map Prod.fst) := by
  induction ls generalizing out seen with
  | nil => simp
  | cons line rest ih =>
      rw [List.foldl_cons]
      cases found : keyAt keys line with
      | none =>
          have step : mergeLine keys (out, seen) line = (out ++ (line ++ ['\n']), seen) := by
            simp only [mergeLine, found]
          have out_line : rewritten keys line = some line := by rw [rewritten, found]
          rw [step, ih, List.filterMap_cons_some out_line, List.filterMap_cons_none found, unlines_cons]
          simp
      | some key =>
          obtain ⟨k, v⟩ := key
          have out_line : rewritten keys line = v.map (written k) := by rw [rewritten, found]
          cases v with
          | none =>
              have step : mergeLine keys (out, seen) line = (out, seen ++ [k]) := by simp only [mergeLine, found]
              rw [step, ih, List.filterMap_cons_none out_line, List.filterMap_cons_some found]
              simp
          | some v =>
              have step : mergeLine keys (out, seen) line = (out ++ (k ++ '=' :: (v ++ ['\n'])), seen ++ [k]) := by
                simp only [mergeLine, found]
              rw [step, ih, List.filterMap_cons_some out_line, List.filterMap_cons_some found, unlines_cons]
              simp [written]

theorem foldl_appendKey (seen : List Text) (keys : Keys) (out : Text) :
    keys.foldl (appendKey seen) out = out ++ unlines (keys.filterMap (lacking seen)) := by
  induction keys generalizing out with
  | nil => simp
  | cons key rest ih =>
      obtain ⟨k, v⟩ := key
      rw [List.foldl_cons, ih]
      cases v with
      | none =>
          have nothing : lacking seen (k, none) = none := by simp [lacking]
          rw [List.filterMap_cons_none nothing, appendKey]
      | some v =>
          rw [appendKey]
          split
          · rename_i known
            have nothing : lacking seen (k, some v) = none := by rw [lacking, if_pos known]
            rw [List.filterMap_cons_none nothing]
          · rename_i unknown
            have line : lacking seen (k, some v) = some (written k v) := by
              rw [lacking, if_neg unknown]
              rfl
            rw [List.filterMap_cons_some line, unlines_cons, written]
            simp

theorem mergeAgentEnv_eq {text : Text} {keys : Keys} {entries : List (Text × Text)} (read : parse text = .ok entries) :
    mergeAgentEnv text keys = .ok (unlines (outLines keys text)) := by
  unfold mergeAgentEnv outLines
  rw [read]
  simp only [foldl_mergeLine, foldl_appendKey, unlines_append, List.nil_append, seenIn]
  split
  · rw [unlines_singleton]
  · rw [unlines_nil, List.append_nil]

/-! ## What they give -/

section Merged

variable {text : Text} {keys : Keys} {entries : List (Text × Text)} {line : Text}

theorem nameOk_agentKeys : ∀ k ∈ agentKeys, nameOk k = true := by decide

theorem Asked.nameOk (asked : Asked keys) {k : Text} {v : Option Text} (member : (k, v) ∈ keys) :
    Secrets.nameOk k = true :=
  nameOk_agentKeys k (asked.named (k, v) member)

theorem preamble_blank : entry preamble = none ∧ Reads preamble ∧ dropReturn preamble = preamble ∧ '\n' ∉ preamble := by
  have gives : readLine 0 preamble = .ok none := by decide
  obtain ⟨reads, none⟩ := readLine_eq_ok.mp gives
  exact ⟨none, reads, by decide, by decide⟩

/-- The key whose line it is, told by what the line gives. -/
theorem keyAt_of_reads (reads : Reads line) :
    keyAt keys line = (entry line).bind fun e => keys.find? (·.1 = e.1) := by
  obtain ⟨given, ok⟩ : ∃ given, readLine 0 line = .ok given := ⟨entry line, readLine_eq_ok.mpr ⟨reads, rfl⟩⟩
  rw [(readLine_eq_ok.mp ok).2]
  unfold readLine at ok
  unfold keyAt
  simp only at ok ⊢
  split at ok
  · rename_i blank
    cases ok
    rcases blank with nil | comment
    · rw [nil]
      rfl
    · simp only [if_pos comment]
      split <;> rfl
  · rename_i some
    rw [not_or] at some
    cases found : cutAt ['='] (trim line) with
    | none =>
        rw [found] at ok
        cases ok
    | some split =>
        obtain ⟨k, v⟩ := split
        rw [found] at ok
        simp only at ok
        split at ok
        · cases ok
          simp only [Option.bind_some, if_neg some.2]
          split
          · rename_i key eq
            exact eq.symm
          · rename_i eq
            exact eq.symm
        · cases ok

theorem find_key (asked : Asked keys) {k : Text} {v : Option Text} (member : (k, v) ∈ keys) :
    keys.find? (·.1 = k) = some (k, v) := by
  obtain ⟨front, back, rfl⟩ := List.append_of_mem member
  have once := asked.once
  rw [List.map_append, List.map_cons, List.nodup_append] at once
  have notBefore : front.find? (·.1 = k) = none := by
    rw [List.find?_eq_none]
    intro key before same
    exact once.2.2 key.1 (List.mem_map_of_mem before) k List.mem_cons_self (of_decide_eq_true same)
  rw [List.find?_append, notBefore, List.find?_cons_of_pos (by simp)]
  rfl

theorem find_some {k k' : Text} {v : Option Text} (found : keys.find? (·.1 = k) = some (k', v)) :
    k' = k ∧ (k', v) ∈ keys := by
  have same := List.find?_some found
  exact ⟨of_decide_eq_true same, List.mem_of_find?_eq_some found⟩

/-- A line that is written again, or kept, gives the entry replaced. -/
theorem entry_rewritten (asked : Asked keys) (reads : Reads line) :
    (rewritten keys line).bind entry = (entry line).bind (replaced unquote keys) := by
  unfold rewritten
  rw [keyAt_of_reads reads]
  cases gives : entry line with
  | none => exact gives
  | some e =>
      simp only [Option.bind_some, replaced]
      cases found : keys.find? (·.1 = e.1) with
      | none => exact gives
      | some key =>
          obtain ⟨k, v⟩ := key
          have member := (find_some found).2
          cases v with
          | none => rfl
          | some v => exact entry_written (asked.nameOk member) (asked.sealed k v member)

theorem entries_rewritten (asked : Asked keys) {ls : List Text} (each : ∀ line ∈ ls, Reads line) :
    (ls.filterMap (rewritten keys)).filterMap entry = (ls.filterMap entry).filterMap (replaced unquote keys) := by
  rw [List.filterMap_filterMap, List.filterMap_filterMap]
  exact List.filterMap_congr fun line member => entry_rewritten asked (each line member)

theorem seenIn_iff (asked : Asked keys) (read : parse text = .ok entries) {k : Text} {v : Option Text}
    (member : (k, v) ∈ keys) : (seenIn keys text).contains k = true ↔ k ∈ entries.map Prod.fst := by
  obtain ⟨each, rfl, -⟩ := parse_eq_ok_iff.mp read
  unfold seenIn
  simp only [List.contains_iff_mem, List.mem_map, List.mem_filterMap]
  constructor
  · rintro ⟨key, ⟨line, isLine, found⟩, rfl⟩
    rw [keyAt_of_reads (each line isLine), Option.bind_eq_some_iff] at found
    obtain ⟨e, gives, found⟩ := found
    exact ⟨e, ⟨line, isLine, gives⟩, (find_some found).1.symm⟩
  · rintro ⟨e, ⟨line, isLine, gives⟩, rfl⟩
    refine ⟨(e.1, v), ⟨line, isLine, ?_⟩, rfl⟩
    rw [keyAt_of_reads (each line isLine), gives]
    exact find_key asked member

theorem entry_lacking (asked : Asked keys) (read : parse text = .ok entries) {key : Text × Option Text}
    (member : key ∈ keys) : (lacking (seenIn keys text) key).bind entry = added unquote entries key := by
  obtain ⟨k, v⟩ := key
  have seen := seenIn_iff asked read member
  by_cases known : k ∈ entries.map Prod.fst
  · rw [lacking, if_pos (seen.mpr known), added_of_mem known]
    rfl
  · rw [lacking, if_neg fun is => known (seen.mp is), added_of_not_mem known]
    cases v with
    | none => rfl
    | some v => exact entry_written (asked.nameOk member) (asked.sealed k v member)

theorem entries_outLines (asked : Asked keys) (read : parse text = .ok entries) :
    (outLines keys text).filterMap entry = updatedAs unquote keys entries := by
  obtain ⟨each, eq, -⟩ := parse_eq_ok_iff.mp read
  have noneThere : (if text = [] then [preamble] else []).filterMap entry = [] := by
    split
    · exact List.filterMap_cons_none preamble_blank.1
    · rfl
  unfold outLines updatedAs
  rw [List.filterMap_append, List.filterMap_append, noneThere, List.append_nil, entries_rewritten asked each, ← eq,
    List.filterMap_filterMap]
  congr 1
  exact List.filterMap_congr fun key member => entry_lacking asked read member

/-! ## Where they come from -/

theorem isOther_iff (reads : Reads line) : isOther keys line = true ↔ keyAt keys line = none := by
  rw [keyAt_of_reads reads, isOther]
  cases entry line with
  | none => simp
  | some e => simp [List.find?_eq_none]

theorem isOther_dropReturn : isOther keys (dropReturn line) = isOther keys line := by
  unfold isOther
  rw [entry_dropReturn]

theorem rewritten_other (reads : Reads line) (other : isOther keys line = true) : rewritten keys line = some line := by
  rw [rewritten, (isOther_iff reads).mp other]

theorem keyAt_written (asked : Asked keys) {k v : Text} (member : (k, some v) ∈ keys) :
    keyAt keys (written k v) = some (k, some v) := by
  have ok := asked.nameOk member
  have its := asked.sealed k v member
  rw [keyAt_of_reads (reads_written ok its), entry_written ok its]
  exact find_key asked member

theorem isOther_written (asked : Asked keys) {k v : Text} (member : (k, some v) ∈ keys) :
    isOther keys (written k v) = false := by
  have its := keyAt_written asked member
  rw [Bool.eq_false_iff]
  intro other
  rw [isOther_iff (reads_written (asked.nameOk member) (asked.sealed k v member)), its] at other
  cases other

theorem lacking_eq_some {seen : List Text} {k : Text} {v : Option Text} (gives : lacking seen (k, v) = some line) :
    ∃ w, v = some w ∧ line = written k w := by
  by_cases known : seen.contains k = true
  · rw [lacking, if_pos known] at gives
    cases gives
  · rw [lacking, if_neg known] at gives
    obtain ⟨w, rfl, rfl⟩ := Option.map_eq_some_iff.mp gives
    exact ⟨w, rfl, rfl⟩

theorem rewritten_eq_some {out : Text} (reads : Reads line) (gives : rewritten keys line = some out) :
    (isOther keys line = true ∧ out = line) ∨ ∃ k v, (k, some v) ∈ keys ∧ out = written k v := by
  unfold rewritten at gives
  cases found : keyAt keys line with
  | none =>
      rw [found, Option.some.injEq] at gives
      exact .inl ⟨(isOther_iff reads).mpr found, gives.symm⟩
  | some key =>
      obtain ⟨k, v⟩ := key
      rw [found] at gives
      obtain ⟨v, rfl, rfl⟩ := Option.map_eq_some_iff.mp gives
      rw [keyAt_of_reads reads, Option.bind_eq_some_iff] at found
      obtain ⟨e, -, found⟩ := found
      exact .inr ⟨k, v, (find_some found).2, rfl⟩

/-- A line that is written is another line of the file, the first line of one that was empty, or a key. -/
theorem mem_outLines (read : parse text = .ok entries) (member : line ∈ outLines keys text) :
    line ∈ others keys text ∨ (text = [] ∧ line = preamble) ∨ ∃ k v, (k, some v) ∈ keys ∧ line = written k v := by
  have each := (parse_eq_ok_iff.mp read).1
  simp only [outLines, List.mem_append, List.mem_filterMap] at member
  rcases member with (⟨old, isLine, gives⟩ | first) | ⟨key, isKey, gives⟩
  · rcases rewritten_eq_some (each old isLine) gives with ⟨other, rfl⟩ | key
    · exact .inl (List.mem_filter.mpr ⟨isLine, other⟩)
    · exact .inr (.inr key)
  · split at first
    · rename_i empty
      exact .inr (.inl ⟨empty, List.mem_singleton.mp first⟩)
    · cases first
  · obtain ⟨k, v⟩ := key
    obtain ⟨w, rfl, eq⟩ := lacking_eq_some gives
    exact .inr (.inr ⟨k, w, isKey, eq⟩)

/-- Every key that is set is written. -/
theorem written_mem_outLines (asked : Asked keys) {k v : Text} (member : (k, some v) ∈ keys)
    (read : parse text = .ok entries) : written k v ∈ outLines keys text := by
  simp only [outLines, List.mem_append, List.mem_filterMap]
  by_cases seen : (seenIn keys text).contains k = true
  · left
    left
    have known := seen
    simp only [seenIn, List.contains_iff_mem, List.mem_map, List.mem_filterMap] at known
    obtain ⟨⟨k', v'⟩, ⟨line, isLine, found⟩, rfl⟩ := known
    refine ⟨line, isLine, ?_⟩
    have its := found
    rw [keyAt_of_reads ((parse_eq_ok_iff.mp read).1 line isLine), Option.bind_eq_some_iff] at its
    obtain ⟨e, -, its⟩ := its
    obtain ⟨same, -⟩ := find_some its
    rw [← same, find_key asked member, Option.some.injEq, Prod.mk.injEq] at its
    rw [rewritten, found, ← its.2]
    rfl
  · right
    exact ⟨(k, some v), member, by rw [lacking, if_neg seen]; rfl⟩

theorem outLines_plain (asked : Asked keys) (read : parse text = .ok entries) (member : line ∈ outLines keys text) :
    '\n' ∉ line ∧ Reads line := by
  rcases mem_outLines read member with other | ⟨-, rfl⟩ | ⟨k, v, isKey, rfl⟩
  · have isLine := (List.mem_filter.mp other).1
    exact ⟨newline_not_mem_lines isLine, (parse_eq_ok_iff.mp read).1 line isLine⟩
  · exact ⟨preamble_blank.2.2.2, preamble_blank.2.1⟩
  · have ok := asked.nameOk isKey
    have its := asked.sealed k v isKey
    exact ⟨newline_not_mem_written ok its, reads_written ok its⟩

theorem lines_merged (asked : Asked keys) (read : parse text = .ok entries) :
    lines (unlines (outLines keys text)) = (outLines keys text).map dropReturn :=
  lines_unlines fun _ member => (outLines_plain asked read member).1

/-- The lines of other keys that are written are those that were there. -/
theorem others_outLines (asked : Asked keys) (read : parse text = .ok entries) (nonempty : text ≠ []) :
    (outLines keys text).filter (isOther keys) = others keys text := by
  have each := (parse_eq_ok_iff.mp read).1
  have noKey : (keys.filterMap (lacking (seenIn keys text))).filter (isOther keys) = [] := by
    rw [List.filter_eq_nil_iff]
    intro line member
    obtain ⟨⟨k, v⟩, isKey, gives⟩ := List.mem_filterMap.mp member
    obtain ⟨w, rfl, rfl⟩ := lacking_eq_some gives
    rw [isOther_written asked isKey]
    exact Bool.false_ne_true
  unfold outLines others
  rw [if_neg nonempty, List.append_nil, List.filter_append, noKey, List.append_nil]
  clear read
  generalize lines text = ls at each
  induction ls with
  | nil => rfl
  | cons line rest ih =>
      rw [List.forall_mem_cons] at each
      have later := ih each.2
      by_cases other : isOther keys line = true
      · rw [List.filterMap_cons_some (rewritten_other each.1 other), List.filter_cons_of_pos other,
          List.filter_cons_of_pos other, later]
      · rw [List.filter_cons_of_neg other]
        cases gives : rewritten keys line with
        | none => rw [List.filterMap_cons_none gives, later]
        | some out =>
            rw [List.filterMap_cons_some gives]
            -- the line written in its place is the key's, so it is none of the others
            rcases rewritten_eq_some each.1 gives with ⟨its, -⟩ | ⟨k, v, isKey, rfl⟩
            · exact absurd its other
            · rw [List.filter_cons_of_neg (Bool.eq_false_iff.mp (isOther_written asked isKey)), later]

/-! ## What the merged file gives -/

theorem replaced_name {read : Text → Text} {e e' : Text × Text} (gives : replaced read keys e = some e') : e'.1 = e.1 := by
  unfold replaced at gives
  cases found : keys.find? (·.1 = e.1) with
  | none =>
      rw [found, Option.some.injEq] at gives
      rw [gives]
  | some key =>
      obtain ⟨k, v⟩ := key
      rw [found] at gives
      obtain ⟨w, -, rfl⟩ := Option.map_eq_some_iff.mp gives
      exact (find_some found).1

theorem names_replaced (read : Text → Text) (entries : List (Text × Text)) :
    ((entries.filterMap (replaced read keys)).map Prod.fst).Sublist (entries.map Prod.fst) := by
  induction entries with
  | nil => exact List.Sublist.refl _
  | cons e rest ih =>
      cases gives : replaced read keys e with
      | none =>
          rw [List.filterMap_cons_none gives]
          exact ih.cons _
      | some e' =>
          rw [List.filterMap_cons_some gives, List.map_cons, List.map_cons, replaced_name gives]
          exact ih.cons_cons _

theorem added_name {read : Text → Text} {key : Text × Option Text} {e : Text × Text}
    (gives : added read entries key = some e) : e.1 = key.1 ∧ key.1 ∉ entries.map Prod.fst := by
  obtain ⟨k, v⟩ := key
  by_cases known : k ∈ entries.map Prod.fst
  · rw [added_of_mem known] at gives
    cases gives
  · rw [added_of_not_mem known] at gives
    obtain ⟨w, -, rfl⟩ := Option.map_eq_some_iff.mp gives
    exact ⟨rfl, known⟩

theorem names_added (read : Text → Text) (keys : Keys) :
    ((keys.filterMap (added read entries)).map Prod.fst).Sublist (keys.map Prod.fst) := by
  induction keys with
  | nil => exact List.Sublist.refl _
  | cons key rest ih =>
      cases gives : added read entries key with
      | none =>
          rw [List.filterMap_cons_none gives]
          exact ih.cons _
      | some e =>
          rw [List.filterMap_cons_some gives, List.map_cons, List.map_cons, (added_name gives).1]
          exact ih.cons_cons _

/-- Every name is there once. -/
theorem nodup_updatedAs (asked : Asked keys) (read : Text → Text) (once : (entries.map Prod.fst).Nodup) :
    ((updatedAs read keys entries).map Prod.fst).Nodup := by
  rw [updatedAs, List.map_append, List.nodup_append]
  refine ⟨once.sublist (names_replaced read entries), asked.once.sublist (names_added read keys), ?_⟩
  rintro k old k' new rfl
  obtain ⟨e, isAdded, rfl⟩ := List.mem_map.mp new
  obtain ⟨key, -, gives⟩ := List.mem_filterMap.mp isAdded
  obtain ⟨name, fresh⟩ := added_name gives
  rw [name] at old
  exact fresh ((names_replaced read entries).subset old)

/-- A key that is set stands among the entries with its value. -/
theorem mem_updatedAs (asked : Asked keys) (read : Text → Text) {k v : Text} (member : (k, some v) ∈ keys) :
    (k, read v) ∈ updatedAs read keys entries := by
  rw [updatedAs, List.mem_append]
  by_cases known : k ∈ entries.map Prod.fst
  · left
    obtain ⟨e, isEntry, rfl⟩ := List.mem_map.mp known
    refine List.mem_filterMap.mpr ⟨e, isEntry, ?_⟩
    rw [replaced, find_key asked member]
    rfl
  · right
    refine List.mem_filterMap.mpr ⟨(k, some v), member, ?_⟩
    rw [added_of_not_mem known]
    rfl

theorem updatedAs_congr {f g : Text → Text} (same : ∀ k v, (k, some v) ∈ keys → f v = g v) :
    updatedAs f keys entries = updatedAs g keys entries := by
  unfold updatedAs
  congr 1
  · apply List.filterMap_congr
    intro e _
    unfold replaced
    cases found : keys.find? (·.1 = e.1) with
    | none => rfl
    | some key =>
        obtain ⟨k, v⟩ := key
        have member := (find_some found).2
        cases v with
        | none => rfl
        | some v => simp [same k v member]
  · apply List.filterMap_congr
    intro key member
    obtain ⟨k, v⟩ := key
    cases v with
    | none => rfl
    | some v => simp [added, same k v member]

theorem parse_merged (asked : Asked keys) (read : parse text = .ok entries) :
    parse (unlines (outLines keys text)) = .ok (updatedAs unquote keys entries) := by
  rw [parse_eq_ok_iff, lines_merged asked read]
  refine ⟨?_, ?_, nodup_updatedAs asked unquote (parse_eq_ok_iff.mp read).2.2⟩
  · intro line member
    obtain ⟨out, isOut, rfl⟩ := List.mem_map.mp member
    exact reads_dropReturn.mpr (outLines_plain asked read isOut).2
  · rw [List.filterMap_map, ← entries_outLines asked read]
    exact List.filterMap_congr fun line _ => (entry_dropReturn line).symm

/-- What is signed is read exactly when no value stands in quotes. -/
theorem parse_merged_iff (asked : Asked keys) (read : parse text = .ok entries) :
    parse (unlines (outLines keys text)) = .ok (updated keys entries) ↔ ∀ k v, (k, some v) ∈ keys → ¬ Quoted v := by
  rw [parse_merged asked read, Except.ok.injEq]
  constructor
  · intro same k v member
    rw [← unquote_eq_self_iff]
    have one := @mem_updatedAs keys entries asked unquote k v member
    have other := @mem_updatedAs keys entries asked id k v member
    rw [updated] at same
    rw [same] at one
    have names := nodup_updatedAs asked id (parse_eq_ok_iff.mp read).2.2
    have pair := List.inj_on_of_nodup_map names one other rfl
    exact (Prod.mk.inj pair).2
  · intro plain
    exact updatedAs_congr fun k v member => unquote_eq_self_iff.mpr (plain k v member)

/-- The other lines stand in the merged file exactly when none ends in a carriage return. -/
theorem others_kept_iff (asked : Asked keys) (read : parse text = .ok entries) :
    (others keys text).Sublist (lines (unlines (outLines keys text))) ↔
      ∀ line ∈ others keys text, line.getLast? ≠ some '\r' := by
  rw [lines_merged asked read]
  by_cases empty : text = []
  · subst empty
    simp [others, lines]
  have kept := others_outLines asked read empty
  have keptRead : ((outLines keys text).map dropReturn).filter (isOther keys) = (others keys text).map dropReturn := by
    rw [List.filter_map, ← kept]
    congr 1
    exact List.filter_congr fun line _ => isOther_dropReturn
  constructor
  · intro within line member
    have filtered := within.filter (isOther keys)
    rw [keptRead, others, List.filter_filter] at filtered
    simp only [Bool.and_self] at filtered
    have same := filtered.eq_of_length (by rw [List.length_map])
    rw [← dropReturn_eq_self]
    have fixed : (others keys text).map dropReturn = (others keys text).map id := by
      rw [List.map_id]
      exact same.symm
    exact List.map_inj_left.mp fixed line member
  · intro plain
    have same : (others keys text).map dropReturn = others keys text := by
      rw [List.map_congr_left fun line member => dropReturn_of_ne (plain line member), List.map_id']
    rw [← same, ← keptRead]
    exact List.filter_sublist

/-! ## Merged again -/

theorem rewritten_outLine (asked : Asked keys) (read : parse text = .ok entries) (member : line ∈ outLines keys text) :
    rewritten keys line = some line := by
  rcases mem_outLines read member with other | ⟨-, rfl⟩ | ⟨k, v, isKey, rfl⟩
  · obtain ⟨isLine, its⟩ := List.mem_filter.mp other
    exact rewritten_other ((parse_eq_ok_iff.mp read).1 line isLine) its
  · have noKey : keyAt keys preamble = none := by
      rw [keyAt_of_reads preamble_blank.2.1, preamble_blank.1]
      rfl
    rw [rewritten, noKey]
  · rw [rewritten, keyAt_written asked isKey]
    rfl

theorem lines_merged_plain (asked : Asked keys) (read : parse text = .ok entries)
    (noReturn : ∀ line ∈ others keys text, line.getLast? ≠ some '\r') :
    lines (unlines (outLines keys text)) = outLines keys text := by
  rw [lines_merged asked read]
  have fixed : ∀ line ∈ outLines keys text, dropReturn line = line := by
    intro line member
    rcases mem_outLines read member with other | ⟨-, rfl⟩ | ⟨k, v, isKey, rfl⟩
    · exact dropReturn_of_ne (noReturn line other)
    · exact preamble_blank.2.2.1
    · exact dropReturn_written (asked.sealed k v isKey)
  rw [List.map_congr_left fixed, List.map_id']

/-- Merging again writes the same lines when there is one. -/
theorem outLines_again (asked : Asked keys) (read : parse text = .ok entries)
    (noReturn : ∀ line ∈ others keys text, line.getLast? ≠ some '\r') (some : outLines keys text ≠ []) :
    outLines keys (unlines (outLines keys text)) = outLines keys text := by
  have again := lines_merged_plain asked read noReturn
  have lines_kept : (outLines keys text).filterMap (rewritten keys) = outLines keys text := by
    rw [List.filterMap_congr fun line member => rewritten_outLine asked read member]
    exact List.filterMap_some
  have nothing : keys.filterMap (lacking (seenIn keys (unlines (outLines keys text)))) = [] := by
    rw [List.filterMap_eq_nil_iff]
    rintro ⟨k, v⟩ member
    cases v with
    | none => simp [lacking]
    | some v =>
        have seen : (seenIn keys (unlines (outLines keys text))).contains k = true := by
          unfold seenIn
          rw [again, List.contains_iff_mem, List.mem_map]
          exact ⟨(k, v), List.mem_filterMap.mpr
            ⟨written k v, written_mem_outLines asked member read, keyAt_written asked member⟩, rfl⟩
        rw [lacking, if_pos seen]
  rw [outLines, again, lines_kept, if_neg (unlines_eq_nil.not.mpr some), nothing, List.append_nil, List.append_nil]

theorem outLines_ne_nil (asked : Asked keys) (read : parse text = .ok entries) :
    outLines keys text ≠ [] ↔ text = [] ∨ others keys text ≠ [] ∨ ∃ k v, (k, some v) ∈ keys := by
  constructor
  · intro some
    obtain ⟨line, member⟩ := List.exists_mem_of_ne_nil _ some
    rcases mem_outLines read member with other | ⟨empty, -⟩ | ⟨k, v, isKey, -⟩
    · exact .inr (.inl (List.ne_nil_of_mem other))
    · exact .inl empty
    · exact .inr (.inr ⟨k, v, isKey⟩)
  · rintro (rfl | some | ⟨k, v, isKey⟩)
    · simp [outLines]
    · by_cases empty : text = []
      · simp [outLines, empty]
      · rw [← others_outLines asked read empty] at some
        intro nil
        rw [nil] at some
        exact some rfl
    · exact List.ne_nil_of_mem (written_mem_outLines asked isKey read)

/-- Merging again changes nothing exactly when something was written, no other line ending in a carriage
return. -/
theorem merged_again_iff (asked : Asked keys) (read : parse text = .ok entries)
    (noReturn : ∀ line ∈ others keys text, line.getLast? ≠ some '\r') :
    mergeAgentEnv (unlines (outLines keys text)) keys = .ok (unlines (outLines keys text)) ↔ outLines keys text ≠ [] := by
  rw [mergeAgentEnv_eq (parse_merged asked read), Except.ok.injEq]
  constructor
  · intro same nil
    rw [nil] at same
    have wrote : outLines keys [] ≠ [] := by simp [outLines]
    exact wrote (unlines_eq_nil.mp same)
  · intro some
    rw [outLines_again asked read noReturn some]

/-- The merged file holds what was signed exactly when no value stands in quotes, no other line ends in a
carriage return and something is written. -/
theorem holdsSigned_iff (asked : Asked keys) (read : parse text = .ok entries) :
    HoldsSigned text keys entries ↔ Plain text keys := by
  have merge := @mergeAgentEnv_eq text keys entries read
  constructor
  · rintro ⟨merged, is, signed, kept, again⟩
    rw [merge, Except.ok.injEq] at is
    subst is
    have noReturn := (others_kept_iff asked read).mp kept
    exact ⟨(parse_merged_iff asked read).mp signed, noReturn,
      (outLines_ne_nil asked read).mp ((merged_again_iff asked read noReturn).mp again)⟩
  · intro plain
    exact ⟨_, merge, (parse_merged_iff asked read).mpr plain.unquoted, (others_kept_iff asked read).mpr plain.noReturn,
      (merged_again_iff asked read plain.noReturn).mpr ((outLines_ne_nil asked read).mpr plain.leaves)⟩

end Merged

/-- A comment and another key stay, and a key is set. -/
theorem holdsSigned_github :
    HoldsSigned "# note\nOPENAI_API_KEY='sk-old'\n".toList [("GITHUB_TOKEN".toList, some "ghp_new".toList)]
      [("OPENAI_API_KEY".toList, "sk-old".toList)] := by
  refine (holdsSigned_iff ⟨by decide, by decide, ?_⟩ (by decide)).mpr ⟨?_, by decide, ?_⟩
  · intro k v member
    cases List.mem_singleton.mp member
    exact sealable_of_all (by decide) (by decide)
  · intro k v member
    cases List.mem_singleton.mp member
    rw [← unquote_eq_self_iff]
    decide
  · exact .inr (.inr ⟨_, _, List.mem_singleton_self _⟩)

/-- A token in quotes is read without them. -/
theorem not_holdsSigned_quoted :
    Asked [("GITHUB_TOKEN".toList, some "'ghp_new'".toList)] ∧
      parse "OPENAI_API_KEY=sk-old\n".toList = .ok [("OPENAI_API_KEY".toList, "sk-old".toList)] ∧
      ¬ HoldsSigned "OPENAI_API_KEY=sk-old\n".toList [("GITHUB_TOKEN".toList, some "'ghp_new'".toList)]
          [("OPENAI_API_KEY".toList, "sk-old".toList)] := by
  refine ⟨⟨by decide, by decide, ?_⟩, by decide, ?_⟩
  · intro k v member
    cases List.mem_singleton.mp member
    exact sealable_of_all (by decide) (by decide)
  · rintro ⟨merged, is, signed, -⟩
    have wrote : mergeAgentEnv "OPENAI_API_KEY=sk-old\n".toList [("GITHUB_TOKEN".toList, some "'ghp_new'".toList)] =
        .ok "OPENAI_API_KEY=sk-old\nGITHUB_TOKEN='ghp_new'\n".toList := by decide
    rw [wrote, Except.ok.injEq] at is
    subst is
    revert signed
    decide

end OmarchyPool.Agent.Secrets
