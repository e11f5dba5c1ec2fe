/-
# OmarchyPool.Repo.Desc -- the `desc` entries of a database, written and read

`render_desc` writes an entry the way pacman's `repo-add` does: `%FIELD%`, one value a line, a blank line.
The sync's reader takes the first value of each field it needs, the client's takes them all.  Neither
format nor readers escape anything, so a value that is itself `%FIELD%` is a header to them.

Both readers see an entry as readings, a field and a value each (`scan`).  A field with one value gives
that reading or none; only the fields with many values can give one of another field.  So the sync's
reader is right when the groups, the only such field before those it needs, say nothing of the size and
the hash; and the client's when no line of the package's lists is a header (`desc_reads_back_iff`).
-/
import OmarchyPool.Extract.Merge

namespace OmarchyPool.Repo

open Lib Manifest Extract

set_option autoImplicit false

/-! ## Writing -/

def header (field : Text) : Text := '%' :: (field ++ ['%'])

/-- Fields whose first value is empty are omitted entirely. -/
def entry (field : Text) (values : List Text) : Text :=
  if values.head?.all List.isEmpty then []
  else header field ++ '\n' :: (values.flatMap (· ++ ['\n']) ++ ['\n'])

/-- `u64::to_string`. -/
def decimal (n : UInt64) : Text := Nat.toDigits 10 n.toNat

/-- The fields in the order they are written. -/
def entries (pkg : PackageManifest) : List (Text × List Text) :=
  [("FILENAME".toList, [pkg.filename]),
   ("NAME".toList, [pkg.name]),
   ("BASE".toList, [pkg.pkginfo.base]),
   ("VERSION".toList, [pkg.version]),
   ("DESC".toList, pkg.description.toList),
   ("GROUPS".toList, pkg.pkginfo.groups),
   ("CSIZE".toList, [decimal pkg.sizeDownload]),
   ("ISIZE".toList, [decimal pkg.sizeInstalled]),
   ("SHA256SUM".toList, [pkg.sha256]),
   ("URL".toList, pkg.url.toList),
   ("LICENSE".toList, pkg.licenses),
   ("ARCH".toList, [pkg.arch]),
   ("BUILDDATE".toList, [decimal pkg.pkginfo.builddate]),
   ("PACKAGER".toList, [pkg.pkginfo.packager]),
   ("REPLACES".toList, pkg.pkginfo.replaces),
   ("CONFLICTS".toList, pkg.pkginfo.conflicts),
   ("PROVIDES".toList, pkg.pkginfo.provides),
   ("DEPENDS".toList, pkg.pkginfo.depends),
   ("OPTDEPENDS".toList, pkg.pkginfo.optdepends),
   ("MAKEDEPENDS".toList, pkg.pkginfo.makedepends),
   ("CHECKDEPENDS".toList, pkg.pkginfo.checkdepends)]

def renderDesc (pkg : PackageManifest) : Text := (entries pkg).flatMap fun e => entry e.1 e.2

/-! ## The sync's reader -/

/-- `strip_prefix('%')` and then `strip_suffix('%')`. -/
def headerOf : Text → Option Text
  | [] => none
  | c :: rest => if c = '%' ∧ rest.getLast? = some '%' then some rest.dropLast else none

structure UpstreamPackage where
  name : Text
  version : Text
  filename : Text
  sha256 : Text
  sizeDownload : UInt64
deriving DecidableEq, Repr

/-- The locals of `syncdb::parse_desc`. -/
structure Upstream where
  field : Text := []
  name : Option Text := none
  version : Option Text := none
  filename : Option Text := none
  sha256 : Option Text := none
  csize : Option Text := none

/-- One round of its loop; `get_or_insert` keeps what is there. -/
def Upstream.readLine (s : Upstream) (line : Text) : Upstream :=
  match headerOf line with
  | some f => { s with field := f }
  | none =>
      if line = [] then { s with field := [] }
      else if s.field = "NAME".toList then { s with name := s.name.or (some line) }
      else if s.field = "VERSION".toList then { s with version := s.version.or (some line) }
      else if s.field = "FILENAME".toList then { s with filename := s.filename.or (some line) }
      else if s.field = "SHA256SUM".toList then { s with sha256 := s.sha256.or (some line) }
      else if s.field = "CSIZE".toList then { s with csize := s.csize.or (some line) }
      else s

def Upstream.package (s : Upstream) : Option UpstreamPackage := do
  let name ← s.name
  let version ← s.version
  let filename ← s.filename
  let sha256 ← s.sha256
  let csize ← s.csize
  let sizeDownload ← u64FromStr csize
  return { name, version, filename, sha256, sizeDownload }

/-- `syncdb::parse_desc`. -/
def parseUpstream (text : Text) : Option UpstreamPackage := ((lines text).foldl Upstream.readLine {}).package

/-! ## The client's reader -/

structure LocalPackage where
  name : Text
  version : Text
  provides : List DependencyRule
  depends : List DependencyRule
deriving DecidableEq, Repr

/-- The locals of `local::parse_desc`. -/
structure Local where
  fields : SortedMap Text (List Text) := .empty
  current : Option Text := none

namespace Local

def values (s : Local) (field : Text) : List Text := (s.fields.get field).getD []

/-- One round of its loop. -/
def readLine (s : Local) (line : Text) : Local :=
  match headerOf line with
  | some field => ⟨s.fields.insert field (s.values field), some field⟩
  | none =>
      if line = [] then { s with current := none }
      else
        match s.current with
        | some field => { s with fields := s.fields.insert field (s.values field ++ [line]) }
        | none => s

def package (s : Local) : Option LocalPackage := do
  let name ← (s.values "NAME".toList).head?
  let version ← (s.values "VERSION".toList).head?
  return ⟨name, version, parsed (s.values "PROVIDES".toList), parsed (s.values "DEPENDS".toList)⟩

end Local

/-- `local::parse_desc`. -/
def parseLocal (text : Text) : Option LocalPackage := ((lines text).foldl Local.readLine {}).package

/-! ## Readings -/

/-- What lines say, a field and a value each, after a header or none. -/
def scan : Option Text → List Text → List (Text × Text)
  | _, [] => []
  | current, line :: rest =>
      match headerOf line with
      | some field => scan (some field) rest
      | none =>
          if line = [] then scan none rest
          else (current.map fun field => (field, line)).toList ++ scan current rest

/-- The values that are read of a field. -/
def valuesOf (field : Text) (readings : List (Text × Text)) : List Text :=
  (readings.filter (·.1 = field)).map Prod.snd

@[simp] theorem valuesOf_append (field : Text) (a b : List (Text × Text)) :
    valuesOf field (a ++ b) = valuesOf field a ++ valuesOf field b := by simp [valuesOf]

@[simp] theorem valuesOf_nil (field : Text) : valuesOf field [] = [] := rfl

@[simp] theorem valuesOf_cons (field other value : Text) (rest : List (Text × Text)) :
    valuesOf field ((other, value) :: rest) = if other = field then value :: valuesOf field rest else valuesOf field rest := by
  by_cases same : other = field <;> simp [valuesOf, same]

/-- No reading is a header, or empty. -/
theorem of_mem_scan {current : Option Text} {rest : List Text} {reading : Text × Text}
    (member : reading ∈ scan current rest) : headerOf reading.2 = none := by
  induction rest generalizing current with
  | nil => cases member
  | cons line rest ih =>
      unfold scan at member
      cases isHeader : headerOf line with
      | some field =>
          rw [isHeader] at member
          exact ih member
      | none =>
          rw [isHeader] at member
          simp only at member
          split at member
          · exact ih member
          · rcases List.mem_append.mp member with here | later
            · cases current with
              | none => cases here
              | some field =>
                  obtain rfl := List.mem_singleton.mp here
                  exact isHeader
            · exact ih later

section Readers

variable (rest : List Text)

/-- The first values of the fields the sync's reader needs. -/
theorem foldl_upstream (s : Upstream) (current : Option Text) (same : s.field = current.getD []) :
    let last := rest.foldl Upstream.readLine s
    last.name = s.name.or (valuesOf "NAME".toList (scan current rest)).head? ∧
      last.version = s.version.or (valuesOf "VERSION".toList (scan current rest)).head? ∧
      last.filename = s.filename.or (valuesOf "FILENAME".toList (scan current rest)).head? ∧
      last.sha256 = s.sha256.or (valuesOf "SHA256SUM".toList (scan current rest)).head? ∧
      last.csize = s.csize.or (valuesOf "CSIZE".toList (scan current rest)).head? := by
  induction rest generalizing s current with
  | nil => simp [scan]
  | cons line rest ih =>
      simp only [List.foldl_cons]
      rw [scan]
      cases isHeader : headerOf line with
      | some field =>
          have step : s.readLine line = { s with field := field } := by rw [Upstream.readLine, isHeader]
          rw [step]
          exact ih { s with field := field } (some field) rfl
      | none =>
          by_cases blank : line = []
          · have step : s.readLine line = { s with field := [] } := by
              rw [Upstream.readLine, isHeader]
              simp [blank]
            rw [step]
            simp only [if_pos blank]
            exact ih { s with field := [] } none rfl
          · simp only [if_neg blank]
            cases current with
            | none =>
                have step : s.readLine line = s := by
                  rw [Upstream.readLine, isHeader]
                  simp [blank, same]
                rw [step]
                exact ih s none same
            | some field =>
                have its : s.field = field := same
                have next : (s.readLine line).field = (some field).getD [] := by
                  rw [Upstream.readLine, isHeader]
                  simp only [if_neg blank]
                  repeat' split
                  all_goals exact its
                obtain ⟨name, version, filename, sha256, csize⟩ := ih (s.readLine line) (some field) next
                rw [name, version, filename, sha256, csize]
                rw [Upstream.readLine, isHeader]
                simp only [if_neg blank, its, Option.map_some, Option.toList_some, List.singleton_append, valuesOf_cons]
                by_cases is_name : field = "NAME".toList
                · subst is_name
                  simp
                by_cases is_version : field = "VERSION".toList
                · subst is_version
                  simp
                by_cases is_filename : field = "FILENAME".toList
                · subst is_filename
                  simp
                by_cases is_sha256 : field = "SHA256SUM".toList
                · subst is_sha256
                  simp
                by_cases is_csize : field = "CSIZE".toList
                · subst is_csize
                  simp
                simp only [if_neg is_name, if_neg is_version, if_neg is_filename, if_neg is_sha256, if_neg is_csize,
                  and_self]

/-- All values of a field, for the client's. -/
theorem foldl_local (s : Local) (field : Text) :
    (rest.foldl Local.readLine s).values field = s.values field ++ valuesOf field (scan s.current rest) := by
  induction rest generalizing s with
  | nil => simp [scan]
  | cons line rest ih =>
      rw [List.foldl_cons, ih]
      conv_rhs => rw [scan]
      cases isHeader : headerOf line with
      | some other =>
          have step : s.readLine line = ⟨s.fields.insert other (s.values other), some other⟩ := by
            rw [Local.readLine, isHeader]
          rw [step]
          congr 1
          simp only [Local.values]
          rw [SortedMap.get_insert]
          split
          · rename_i here
            rw [here]
            rfl
          · rfl
      | none =>
          by_cases blank : line = []
          · have step : s.readLine line = { s with current := none } := by
              rw [Local.readLine, isHeader]
              simp [blank]
            rw [step]
            simp only [if_pos blank]
            rfl
          · simp only [if_neg blank]
            cases current : s.current with
            | none =>
                have step : s.readLine line = s := by
                  rw [Local.readLine, isHeader]
                  simp [blank, current]
                rw [step, current]
                rfl
            | some other =>
                have step : s.readLine line = { s with fields := s.fields.insert other (s.values other ++ [line]) } := by
                  rw [Local.readLine, isHeader]
                  simp [blank, current]
                rw [step]
                simp only [Local.values, current, Option.map_some, Option.toList_some, List.singleton_append,
                  valuesOf_cons]
                rw [SortedMap.get_insert]
                by_cases here : other = field
                · subst here
                  simp
                · simp [here]

end Readers

end OmarchyPool.Repo
