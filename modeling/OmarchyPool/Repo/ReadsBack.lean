/-
# OmarchyPool.Repo.ReadsBack -- which entries read back

The manifest of a package has values of one line each, so an entry is read line by line as it was written,
and what the readers see is the readings of its fields one after another (`scan_render`).  Of a field with
one value that is its reading, when it is not a header; the lists of the package are the rest.
-/
import OmarchyPool.Repo.Desc

namespace OmarchyPool.Repo

open Lib Manifest Extract

set_option autoImplicit false

/-- Read as one line, as it stands. -/
def IsLine (v : Text) : Prop := '\n' ∉ v ∧ v.getLast? ≠ some '\r'

/-! ## An entry, line by line -/

theorem headerOf_header (field : Text) : headerOf (header field) = some field := by
  simp [headerOf, header]

def entryLines (field : Text) (values : List Text) : List Text :=
  if values.head?.all List.isEmpty then [] else header field :: (values ++ [[]])

theorem lines_values {values : List Text} (each : ∀ v ∈ values, IsLine v) (rest : Text) :
    lines (values.flatMap (· ++ ['\n']) ++ rest) = values ++ lines rest := by
  induction values with
  | nil => rfl
  | cons v more ih =>
      obtain ⟨one, noReturn⟩ := each v List.mem_cons_self
      have later := ih fun w member => each w (List.mem_cons_of_mem _ member)
      simp only [List.flatMap_cons, List.append_assoc, List.cons_append, List.nil_append]
      rw [lines_append one noReturn, later]

theorem lines_entry {field : Text} {values : List Text} (plain : '\n' ∉ field) (each : ∀ v ∈ values, IsLine v)
    (rest : Text) : lines (entry field values ++ rest) = entryLines field values ++ lines rest := by
  unfold entry entryLines
  split
  · rfl
  · have one : '\n' ∉ header field := by simp [header, plain]
    have noReturn : (header field).getLast? ≠ some '\r' := by
      rw [header, ← List.cons_append, List.getLast?_concat]
      decide
    simp only [List.append_assoc, List.cons_append, List.nil_append]
    rw [lines_append one noReturn, lines_values each]
    rfl

theorem scan_blank (current : Option Text) (front rest : List Text) :
    scan current (front ++ [] :: rest) = scan current front ++ scan none rest := by
  induction front generalizing current with
  | nil => simp [scan, headerOf]
  | cons line front ih =>
      rw [List.cons_append, scan, scan]
      cases headerOf line with
      | some field => exact ih (some field)
      | none =>
          simp only
          split
          · exact ih none
          · rw [ih, List.append_assoc]

/-- What an entry says. -/
def entryReadings (e : Text × List Text) : List (Text × Text) :=
  if e.2.head?.all List.isEmpty then [] else scan (some e.1) e.2

theorem scan_entryLines (field : Text) (values rest : List Text) :
    scan none (entryLines field values ++ rest) = entryReadings (field, values) ++ scan none rest := by
  unfold entryLines entryReadings
  split
  · rfl
  · rw [List.cons_append, scan, headerOf_header]
    simp only [List.append_assoc, List.cons_append, List.nil_append]
    exact scan_blank (some field) values rest

theorem scan_render {fields : List (Text × List Text)}
    (each : ∀ e ∈ fields, '\n' ∉ e.1 ∧ ∀ v ∈ e.2, IsLine v) :
    scan none (lines (fields.flatMap fun e => entry e.1 e.2)) = fields.flatMap entryReadings := by
  induction fields with
  | nil => rfl
  | cons e rest ih =>
      obtain ⟨plain, values⟩ := each e List.mem_cons_self
      rw [List.flatMap_cons, List.flatMap_cons, lines_entry plain values, scan_entryLines,
        ih fun other member => each other (List.mem_cons_of_mem _ member)]

/-! ## Fields with one value -/

theorem headerOf_of_mem {e : Text × List Text} {field v : Text} (member : v ∈ valuesOf field (entryReadings e)) :
    headerOf v = none := by
  obtain ⟨reading, inside, rfl⟩ := List.mem_map.mp member
  unfold entryReadings at inside
  split at inside
  · cases (List.mem_filter.mp inside).1
  · exact of_mem_scan (List.mem_filter.mp inside).1

theorem headerOf_of_mem_flatMap {fields : List (Text × List Text)} {field v : Text}
    (member : v ∈ valuesOf field (fields.flatMap entryReadings)) : headerOf v = none := by
  induction fields with
  | nil => cases member
  | cons e rest ih =>
      rw [List.flatMap_cons, valuesOf_append] at member
      rcases List.mem_append.mp member with here | later
      · exact headerOf_of_mem here
      · exact ih later

/-- A field with at most one value says nothing of another. -/
theorem valuesOf_few {field other : Text} {values : List Text} (few : values.length ≤ 1) (differ : other ≠ field) :
    valuesOf field (entryReadings (other, values)) = [] := by
  rcases values with _ | ⟨v, _ | ⟨w, rest⟩⟩
  · rfl
  · unfold entryReadings
    simp only
    split
    · rfl
    · rw [scan]
      cases headerOf v with
      | some header => rfl
      | none =>
          simp only
          split
          · rfl
          · simp [differ, scan]
  · simp at few

theorem valuesOf_option {field other : Text} (value : Option Text) (differ : other ≠ field) :
    valuesOf field (entryReadings (other, value.toList)) = [] :=
  valuesOf_few (by cases value <;> simp) differ

theorem valuesOf_single {field other : Text} (value : Text) (differ : other ≠ field) :
    valuesOf field (entryReadings (other, [value])) = [] := valuesOf_few (by simp) differ

theorem valuesOf_own {field value : Text} (nonempty : value ≠ []) (plain : headerOf value = none) :
    valuesOf field (entryReadings (field, [value])) = [value] := by
  simp [entryReadings, nonempty, scan, plain]

/-- The first reading of a field with one value, when those before it have one each: the value, if that is
not a header. -/
theorem head?_valuesOf_iff {field value : Text} {front back : List (Text × List Text)}
    (before : valuesOf field (front.flatMap entryReadings) = []) (nonempty : value ≠ []) :
    (valuesOf field ((front ++ (field, [value]) :: back).flatMap entryReadings)).head? = some value ↔
      headerOf value = none := by
  constructor
  · intro first
    exact headerOf_of_mem_flatMap (List.mem_of_head? first)
  · intro plain
    simp [List.flatMap_append, List.flatMap_cons, before, valuesOf_own nonempty plain]

/-! ## The fields of a package -/

def readings (pkg : PackageManifest) : List (Text × Text) := (entries pkg).flatMap entryReadings

/-- The fields with many values. -/
def lists (pkg : PackageManifest) : List (Text × List Text) :=
  [("GROUPS".toList, pkg.pkginfo.groups),
   ("LICENSE".toList, pkg.licenses),
   ("REPLACES".toList, pkg.pkginfo.replaces),
   ("CONFLICTS".toList, pkg.pkginfo.conflicts),
   ("PROVIDES".toList, pkg.pkginfo.provides),
   ("DEPENDS".toList, pkg.pkginfo.depends),
   ("OPTDEPENDS".toList, pkg.pkginfo.optdepends),
   ("MAKEDEPENDS".toList, pkg.pkginfo.makedepends),
   ("CHECKDEPENDS".toList, pkg.pkginfo.checkdepends)]

def listReadings (pkg : PackageManifest) : List (Text × Text) := (lists pkg).flatMap entryReadings

/-- The sync's reader finds what was written. -/
structure SyncReadable (pkg : PackageManifest) : Prop where
  name : headerOf pkg.name = none
  version : headerOf pkg.version = none
  filename : headerOf pkg.filename = none
  csize : ∀ v, (valuesOf "CSIZE".toList (entryReadings ("GROUPS".toList, pkg.pkginfo.groups))).head? = some v →
    u64FromStr v = some pkg.sizeDownload
  sha256 : ∀ v, (valuesOf "SHA256SUM".toList (entryReadings ("GROUPS".toList, pkg.pkginfo.groups))).head? = some v →
    v = pkg.sha256

/-- The client's reader finds what was written. -/
structure ClientReadable (pkg : PackageManifest) : Prop where
  name : headerOf pkg.name = none
  version : headerOf pkg.version = none
  provides : parsed (valuesOf "PROVIDES".toList (listReadings pkg)) = parsed pkg.pkginfo.provides
  depends : parsed (valuesOf "DEPENDS".toList (listReadings pkg)) = parsed pkg.pkginfo.depends

/-- No line of the package is a header, and none of its capabilities and dependencies is empty. -/
structure Plain (pkg : PackageManifest) : Prop where
  name : headerOf pkg.name = none
  version : headerOf pkg.version = none
  filename : headerOf pkg.filename = none
  lists : ∀ e ∈ lists pkg, ∀ v ∈ e.2, headerOf v = none
  provides : [] ∉ pkg.pkginfo.provides
  depends : [] ∉ pkg.pkginfo.depends

section Fields

variable {pkg : PackageManifest}

theorem first_filename (nonempty : pkg.filename ≠ []) :
    (valuesOf "FILENAME".toList (readings pkg)).head? = some pkg.filename ↔ headerOf pkg.filename = none :=
  @head?_valuesOf_iff _ _ [] ((entries pkg).drop 1) rfl nonempty

theorem first_name (nonempty : pkg.name ≠ []) :
    (valuesOf "NAME".toList (readings pkg)).head? = some pkg.name ↔ headerOf pkg.name = none := by
  refine @head?_valuesOf_iff _ _ [("FILENAME".toList, [pkg.filename])] ((entries pkg).drop 2) ?_ nonempty
  simp only [List.flatMap_cons, List.flatMap_nil, List.append_nil]
  exact valuesOf_single pkg.filename (by decide)

theorem first_version (nonempty : pkg.version ≠ []) :
    (valuesOf "VERSION".toList (readings pkg)).head? = some pkg.version ↔ headerOf pkg.version = none := by
  refine @head?_valuesOf_iff _ _ ((entries pkg).take 3) ((entries pkg).drop 4) ?_ nonempty
  simp only [entries, List.take, List.flatMap_cons, List.flatMap_nil, List.append_nil, valuesOf_append]
  rw [valuesOf_single pkg.filename (by decide), valuesOf_single pkg.name (by decide),
    valuesOf_single pkg.pkginfo.base (by decide)]
  rfl

theorem first_csize (plain : headerOf (decimal pkg.sizeDownload) = none) (nonempty : decimal pkg.sizeDownload ≠ []) :
    (valuesOf "CSIZE".toList (readings pkg)).head? =
      (valuesOf "CSIZE".toList (entryReadings ("GROUPS".toList, pkg.pkginfo.groups))).head?.or
        (some (decimal pkg.sizeDownload)) := by
  simp only [readings, entries, List.flatMap_cons, valuesOf_append]
  rw [valuesOf_single pkg.filename (by decide), valuesOf_single pkg.name (by decide),
    valuesOf_single pkg.pkginfo.base (by decide), valuesOf_single pkg.version (by decide),
    valuesOf_option pkg.description (by decide), valuesOf_own nonempty plain]
  simp [List.head?_append]

theorem first_sha256 (plain : headerOf pkg.sha256 = none) (nonempty : pkg.sha256 ≠ []) :
    (valuesOf "SHA256SUM".toList (readings pkg)).head? =
      (valuesOf "SHA256SUM".toList (entryReadings ("GROUPS".toList, pkg.pkginfo.groups))).head?.or
        (some pkg.sha256) := by
  simp only [readings, entries, List.flatMap_cons, valuesOf_append]
  rw [valuesOf_single pkg.filename (by decide), valuesOf_single pkg.name (by decide),
    valuesOf_single pkg.pkginfo.base (by decide), valuesOf_single pkg.version (by decide),
    valuesOf_option pkg.description (by decide), valuesOf_single (decimal pkg.sizeDownload) (by decide),
    valuesOf_single (decimal pkg.sizeInstalled) (by decide), valuesOf_own nonempty plain]
  simp [List.head?_append]

/-- What is read of a field that only lists can give is what the lists give. -/
theorem valuesOf_readings {field : Text} (list : field = "PROVIDES".toList ∨ field = "DEPENDS".toList) :
    valuesOf field (readings pkg) = valuesOf field (listReadings pkg) := by
  have few (other : Text) (value : Text)
      (single : other ∈ ["FILENAME", "NAME", "BASE", "VERSION", "CSIZE", "ISIZE", "SHA256SUM", "ARCH", "BUILDDATE",
        "PACKAGER"].map String.toList) : valuesOf field (entryReadings (other, [value])) = [] := by
    apply valuesOf_single
    rintro rfl
    rcases list with rfl | rfl <;> revert single <;> decide
  have optional (other : Text) (value : Option Text) (single : other ∈ ["DESC", "URL"].map String.toList) :
      valuesOf field (entryReadings (other, value.toList)) = [] := by
    apply valuesOf_option
    rintro rfl
    rcases list with rfl | rfl <;> revert single <;> decide
  simp only [readings, listReadings, entries, lists, List.flatMap_cons, List.flatMap_nil, valuesOf_append]
  rw [few _ pkg.filename (by decide), few _ pkg.name (by decide), few _ pkg.pkginfo.base (by decide),
    few _ pkg.version (by decide), few _ (decimal pkg.sizeDownload) (by decide),
    few _ (decimal pkg.sizeInstalled) (by decide), few _ pkg.sha256 (by decide), few _ pkg.arch (by decide),
    few _ (decimal pkg.pkginfo.builddate) (by decide), few _ pkg.pkginfo.packager (by decide),
    optional _ pkg.description (by decide), optional _ pkg.url (by decide)]
  simp

end Fields

/-! ## Numbers and hashes -/

theorem isDigit_of_mem_decimal {n : UInt64} {c : Char} (member : c ∈ decimal n) : c.isDigit = true :=
  Nat.isDigit_of_mem_toDigits (by decide) (by decide) member

theorem decimal_ne_nil (n : UInt64) : decimal n ≠ [] := Nat.toDigits_ne_nil

theorem headerOf_of_not_mem {v : Text} (absent : '%' ∉ v) : headerOf v = none := by
  cases v with
  | nil => rfl
  | cons c rest =>
      rw [List.mem_cons, not_or] at absent
      simp [headerOf, Ne.symm absent.1]

theorem headerOf_decimal (n : UInt64) : headerOf (decimal n) = none := by
  apply headerOf_of_not_mem
  intro member
  exact absurd (isDigit_of_mem_decimal member) (by decide)

theorem isLine_decimal (n : UInt64) : IsLine (decimal n) := by
  constructor
  · intro member
    exact absurd (isDigit_of_mem_decimal member) (by decide)
  · intro last
    exact absurd (isDigit_of_mem_decimal (List.mem_of_getLast? last)) (by decide)

theorem u64FromStr_decimal (n : UInt64) : u64FromStr (decimal n) = some n := by
  have noSign : (decimal n).head? ≠ some '+' := by
    intro sign
    exact absurd (isDigit_of_mem_decimal (List.mem_of_head? sign)) (by decide)
  have digits : (decimal n).all Char.isDigit = true := by
    rw [List.all_eq_true]
    exact fun c member => isDigit_of_mem_decimal member
  have number : value (fun c : Char => c.toNat - 48) 10 (decimal n) = n.toNat := by
    have read := @Nat.ofDigitChars_ten_toDigits n.toNat
    rw [Nat.ofDigitChars_eq_foldl] at read
    simpa [value, valueFrom, decimal, Nat.mul_comm] using read
  unfold u64FromStr
  rw [if_neg noSign]
  simp only [decimal_ne_nil n, digits, not_true_eq_false, or_self, if_false]
  rw [readBelow_eq (by decide) (by decide), number, if_pos n.toNat_lt]
  simp

/-- `hex::encode`. -/
def hexEncode (digest : List UInt8) : Text :=
  digest.flatMap fun b => [Nat.digitChar (b.toNat / 16), Nat.digitChar (b.toNat % 16)]

theorem isAlphanum_of_mem_hexEncode {digest : List UInt8} {c : Char} (member : c ∈ hexEncode digest) :
    c.isAlphanum = true := by
  have digits : ∀ n < 16, (Nat.digitChar n).isAlphanum = true := by decide
  obtain ⟨b, -, pair⟩ := List.mem_flatMap.mp member
  have below := b.toNat_lt
  rcases List.mem_cons.mp pair with rfl | second
  · exact digits _ (by omega)
  · rw [List.mem_singleton.mp second]
    exact digits _ (by omega)

theorem isLine_hexEncode (digest : List UInt8) : IsLine (hexEncode digest) := by
  constructor
  · intro member
    exact absurd (isAlphanum_of_mem_hexEncode member) (by decide)
  · intro last
    exact absurd (isAlphanum_of_mem_hexEncode (List.mem_of_getLast? last)) (by decide)

theorem headerOf_hexEncode (digest : List UInt8) : headerOf (hexEncode digest) = none := by
  apply headerOf_of_not_mem
  intro member
  exact absurd (isAlphanum_of_mem_hexEncode member) (by decide)

/-! ## A manifest the extractor makes -/

theorem isLine_of_isValue {v : Text} (its : PkgInfo.IsValue v) : IsLine v := by
  refine ⟨its.1, ?_⟩
  intro last
  exact absurd (its.2.2 _ last) (by decide)

section Produced

variable {text : Text} {info : PkgInfo} {elf : List ElfFacts} {digest : List UInt8} {filename : Text}
  {sizeDownload : UInt64} {pkg : PackageManifest}

/-- Every value of the fields is one line, when the name of the archive is. -/
theorem isLine_of_merge (read : PkgInfo.parse text = .ok info)
    (merged : merge info elf (hexEncode digest) sizeDownload filename = .ok pkg) (line : IsLine pkg.filename) :
    ∀ e ∈ entries pkg, '\n' ∉ e.1 ∧ ∀ v ∈ e.2, IsLine v := by
  have formed := PkgInfo.parse_wellFormed read
  have every (key : Text) : ∀ v ∈ info.all key, IsLine v := fun v member => isLine_of_isValue (formed key v member)
  have first (key : Text) {v : Text} (found : info.first key = some v) : IsLine v :=
    every key v (PkgInfo.mem_of_first found)
  have optional (key : Text) : ∀ v ∈ (info.first key).toList, IsLine v := by
    intro v member
    rw [Option.mem_toList] at member
    exact first key member
  have orElse (key : Text) {v : Text} (otherwise : IsLine v) : IsLine ((info.first key).getD v) := by
    cases found : info.first key with
    | none => exact otherwise
    | some w => exact first key found
  obtain ⟨name, version, arch, eq⟩ := merge_ok merged
  have nil : IsLine [] := ⟨List.not_mem_nil, by simp⟩
  have description := congrArg PackageManifest.description eq
  have url := congrArg PackageManifest.url eq
  have licenses := congrArg PackageManifest.licenses eq
  have sha256 := congrArg PackageManifest.sha256 eq
  have pkginfo := congrArg PackageManifest.pkginfo eq
  simp only at description url licenses sha256 pkginfo
  have one {v : Text} (its : IsLine v) : IsLine v ∧ ∀ w ∈ ([] : List Text), IsLine w := ⟨its, by simp⟩
  unfold entries
  rw [description, url, licenses, sha256, pkginfo]
  simp only [pkgInfoFields, List.forall_mem_cons]
  refine ⟨⟨by decide, one line⟩, ⟨by decide, one (first _ name)⟩, ⟨by decide, one (orElse _ (first _ name))⟩,
    ⟨by decide, one (first _ version)⟩, ⟨by decide, optional _⟩, ⟨by decide, every _⟩,
    ⟨by decide, one (isLine_decimal _)⟩, ⟨by decide, one (isLine_decimal _)⟩, ⟨by decide, one (isLine_hexEncode _)⟩,
    ⟨by decide, optional _⟩, ⟨by decide, every _⟩, ⟨by decide, one (first _ arch)⟩,
    ⟨by decide, one (isLine_decimal _)⟩, ⟨by decide, one (orElse _ nil)⟩, ⟨by decide, every _⟩, ⟨by decide, every _⟩,
    ⟨by decide, every _⟩, ⟨by decide, every _⟩, ⟨by decide, every _⟩, ⟨by decide, every _⟩, ⟨by decide, every _⟩, ?_⟩
  simp

theorem scan_desc (read : PkgInfo.parse text = .ok info)
    (merged : merge info elf (hexEncode digest) sizeDownload filename = .ok pkg) (line : IsLine pkg.filename) :
    scan none (lines (renderDesc pkg)) = readings pkg :=
  scan_render (isLine_of_merge read merged line)

end Produced

/-! ## Reading back -/

/-- What the manifest says of the package, as the sync's reader gives it. -/
def upstreamOf (pkg : PackageManifest) : UpstreamPackage :=
  ⟨pkg.name, pkg.version, pkg.filename, pkg.sha256, pkg.sizeDownload⟩

/-- The same for the client's reader. -/
def localOf (pkg : PackageManifest) : LocalPackage :=
  ⟨pkg.name, pkg.version, parsed pkg.pkginfo.provides, parsed pkg.pkginfo.depends⟩

theorem Upstream.package_eq_some_iff {s : Upstream} {package : UpstreamPackage} :
    s.package = some package ↔
      s.name = some package.name ∧ s.version = some package.version ∧ s.filename = some package.filename ∧
        s.sha256 = some package.sha256 ∧ s.csize.bind u64FromStr = some package.sizeDownload := by
  obtain ⟨field, name, version, filename, sha256, csize⟩ := s
  obtain ⟨name', version', filename', sha256', sizeDownload⟩ := package
  unfold Upstream.package
  cases name with
  | none => simp
  | some name =>
      cases version with
      | none => simp
      | some version =>
          cases filename with
          | none => simp
          | some filename =>
              cases sha256 with
              | none => simp
              | some sha256 =>
                  cases csize with
                  | none => simp
                  | some csize =>
                      cases size : u64FromStr csize with
                      | none => simp [size]
                      | some size' => simp [size]

theorem parseUpstream_iff {pkg : PackageManifest} (scanned : scan none (lines (renderDesc pkg)) = readings pkg)
    (name : pkg.name ≠ []) (version : pkg.version ≠ []) (filename : pkg.filename ≠ []) (sha256 : pkg.sha256 ≠ [])
    (hash : headerOf pkg.sha256 = none) :
    parseUpstream (renderDesc pkg) = some (upstreamOf pkg) ↔ SyncReadable pkg := by
  obtain ⟨its_name, its_version, its_filename, its_sha256, its_csize⟩ :=
    foldl_upstream (lines (renderDesc pkg)) {} none rfl
  rw [scanned] at its_name its_version its_filename its_sha256 its_csize
  simp only [Option.none_or] at its_name its_version its_filename its_sha256 its_csize
  rw [parseUpstream, Upstream.package_eq_some_iff, its_name, its_version, its_filename, its_sha256, its_csize,
    first_csize (headerOf_decimal _) (decimal_ne_nil _), first_sha256 hash sha256]
  simp only [upstreamOf]
  rw [first_name name, first_version version, first_filename filename]
  constructor
  · rintro ⟨plainName, plainVersion, plainFilename, hashes, sizes⟩
    refine ⟨plainName, plainVersion, plainFilename, ?_, ?_⟩
    · intro v found
      rwa [found, Option.some_or, Option.bind_some] at sizes
    · intro v found
      rw [found, Option.some_or, Option.some.injEq] at hashes
      exact hashes
  · intro readable
    refine ⟨readable.name, readable.version, readable.filename, ?_, ?_⟩
    · cases found : (valuesOf "SHA256SUM".toList (entryReadings ("GROUPS".toList, pkg.pkginfo.groups))).head? with
      | none => rfl
      | some v => rw [readable.sha256 v found]; rfl
    · cases found : (valuesOf "CSIZE".toList (entryReadings ("GROUPS".toList, pkg.pkginfo.groups))).head? with
      | none => exact u64FromStr_decimal _
      | some v => exact readable.csize v found

theorem parseLocal_iff {pkg : PackageManifest} (scanned : scan none (lines (renderDesc pkg)) = readings pkg)
    (name : pkg.name ≠ []) (version : pkg.version ≠ []) :
    parseLocal (renderDesc pkg) = some (localOf pkg) ↔ ClientReadable pkg := by
  have each (field : Text) :
      ((lines (renderDesc pkg)).foldl Local.readLine {}).values field = valuesOf field (readings pkg) := by
    rw [foldl_local, scanned]
    rfl
  unfold parseLocal Local.package
  simp only [each]
  rw [valuesOf_readings (.inl rfl), valuesOf_readings (.inr rfl)]
  constructor
  · intro found
    obtain ⟨n, its_name, found⟩ := Option.bind_eq_some_iff.mp found
    obtain ⟨v, its_version, found⟩ := Option.bind_eq_some_iff.mp found
    simp only [pure, localOf, Option.some.injEq, LocalPackage.mk.injEq] at found
    obtain ⟨rfl, rfl, provides, depends⟩ := found
    exact ⟨(first_name name).mp its_name, (first_version version).mp its_version, provides, depends⟩
  · intro readable
    rw [(first_name name).mpr readable.name, (first_version version).mpr readable.version, readable.provides,
      readable.depends]
    rfl

/-! ## Plain packages -/

theorem scan_plain {field : Text} {values : List Text} (plain : ∀ v ∈ values, headerOf v = none) :
    ∀ reading ∈ scan (some field) values, reading.1 = field := by
  have after (current : Option Text) (own : ∀ f ∈ current, f = field) :
      ∀ reading ∈ scan current values, reading.1 = field := by
    induction values generalizing current with
    | nil => simp [scan]
    | cons v rest ih =>
        have others := fun w member => plain w (List.mem_cons_of_mem v member)
        rw [scan, plain v List.mem_cons_self]
        simp only
        split
        · exact ih others none (by simp)
        · intro reading member
          rcases List.mem_append.mp member with here | later
          · rw [Option.mem_toList, Option.map_eq_some_iff] at here
            obtain ⟨f, its, rfl⟩ := here
            exact own f its
          · exact ih others current own reading later
  exact after (some field) (by simp)

theorem valuesOf_plain_ne {field other : Text} {values : List Text} (plain : ∀ v ∈ values, headerOf v = none)
    (differ : other ≠ field) : valuesOf field (entryReadings (other, values)) = [] := by
  rw [valuesOf, List.map_eq_nil_iff, List.filter_eq_nil_iff]
  intro reading member
  unfold entryReadings at member
  split at member
  · cases member
  · simp [scan_plain plain reading member, differ]

theorem valuesOf_map (field : Text) (values : List Text) :
    valuesOf field (values.map fun v => (field, v)) = values := by
  induction values with
  | nil => rfl
  | cons v rest ih => rw [List.map_cons, valuesOf_cons, if_pos rfl, ih]

theorem valuesOf_plain {field : Text} {values : List Text} (plain : ∀ v ∈ values, headerOf v = none)
    (nonempty : [] ∉ values) : valuesOf field (entryReadings (field, values)) = values := by
  have whole : scan (some field) values = values.map fun v => (field, v) := by
    induction values with
    | nil => rfl
    | cons v rest ih =>
        rw [List.mem_cons, not_or] at nonempty
        rw [scan, plain v List.mem_cons_self]
        simp only [if_neg (Ne.symm nonempty.1)]
        rw [ih (fun w member => plain w (List.mem_cons_of_mem _ member)) nonempty.2]
        rfl
  unfold entryReadings
  cases values with
  | nil => rfl
  | cons v rest =>
      rw [List.mem_cons, not_or] at nonempty
      have first : ((v :: rest).head?.all List.isEmpty) = false := by simp [Ne.symm nonempty.1]
      simp only [first, Bool.false_eq_true, if_false]
      rw [whole, valuesOf_map]

theorem Plain.syncReadable {pkg : PackageManifest} (plain : Plain pkg) : SyncReadable pkg := by
  have groups := plain.lists ("GROUPS".toList, pkg.pkginfo.groups) List.mem_cons_self
  refine ⟨plain.name, plain.version, plain.filename, ?_, ?_⟩
  · intro v found
    rw [valuesOf_plain_ne groups (by decide)] at found
    cases found
  · intro v found
    rw [valuesOf_plain_ne groups (by decide)] at found
    cases found

theorem Plain.clientReadable {pkg : PackageManifest} (plain : Plain pkg) : ClientReadable pkg := by
  have every := plain.lists
  simp only [Repo.lists, List.forall_mem_cons] at every
  obtain ⟨groups, licenses, replaces, conflicts, provides, depends, optdepends, makedepends, checkdepends, -⟩ := every
  refine ⟨plain.name, plain.version, ?_, ?_⟩
  · simp only [listReadings, Repo.lists, List.flatMap_cons, List.flatMap_nil, valuesOf_append]
    rw [valuesOf_plain_ne groups (by decide), valuesOf_plain_ne licenses (by decide),
      valuesOf_plain_ne replaces (by decide), valuesOf_plain_ne conflicts (by decide),
      valuesOf_plain provides plain.provides, valuesOf_plain_ne depends (by decide),
      valuesOf_plain_ne optdepends (by decide), valuesOf_plain_ne makedepends (by decide),
      valuesOf_plain_ne checkdepends (by decide)]
    simp
  · simp only [listReadings, Repo.lists, List.flatMap_cons, List.flatMap_nil, valuesOf_append]
    rw [valuesOf_plain_ne groups (by decide), valuesOf_plain_ne licenses (by decide),
      valuesOf_plain_ne replaces (by decide), valuesOf_plain_ne conflicts (by decide),
      valuesOf_plain_ne provides (by decide), valuesOf_plain depends plain.depends,
      valuesOf_plain_ne optdepends (by decide), valuesOf_plain_ne makedepends (by decide),
      valuesOf_plain_ne checkdepends (by decide)]
    simp

theorem hexEncode_ne_nil {digest : List UInt8} (nonempty : digest ≠ []) : hexEncode digest ≠ [] := by
  obtain ⟨b, rest, rfl⟩ := List.exists_cons_of_ne_nil nonempty
  simp [hexEncode]

/-- The desc of a package reads back in each reader exactly when the package is readable to it, as a plain one
is. -/
theorem desc_reads_back_iff {text : Text} {info : PkgInfo} {elf : List ElfFacts} {digest : List UInt8}
    {archive : Text} {size : UInt64} {pkg : PackageManifest} (read : PkgInfo.parse text = .ok info)
    (merged : merge info elf (hexEncode digest) size archive = .ok pkg) (name : pkg.name ≠ [])
    (version : pkg.version ≠ []) (filename : pkg.filename ≠ []) (line : IsLine pkg.filename) (hash : digest ≠ []) :
    (parseUpstream (renderDesc pkg) = some (upstreamOf pkg) ↔ SyncReadable pkg) ∧
      (parseLocal (renderDesc pkg) = some (localOf pkg) ↔ ClientReadable pkg) ∧
      (Plain pkg → SyncReadable pkg ∧ ClientReadable pkg) := by
  have scanned := scan_desc read merged line
  obtain ⟨-, -, -, eq⟩ := merge_ok merged
  have sha256 := congrArg PackageManifest.sha256 eq
  simp only at sha256
  refine ⟨parseUpstream_iff scanned name version filename ?_ ?_, parseLocal_iff scanned name version, ?_⟩
  · rw [sha256]
    exact hexEncode_ne_nil hash
  · rw [sha256]
    exact headerOf_hexEncode digest
  · intro plain
    exact ⟨plain.syncReadable, plain.clientReadable⟩

/-! ## A package with a group -/

/-- The manifest of a package of these groups. -/
def grouped (groups : Text) : Except PkgInfoError PackageManifest :=
  (PkgInfo.parse ("pkgname = flea\npkgver = 1.2.0-1\narch = x86_64\n".toList ++ groups)).bind fun info =>
    merge info [] (hexEncode [171, 205]) 1024 "flea-1.2.0-1-x86_64.pkg.tar.zst".toList

theorem flea_reads_back :
    ∃ pkg, grouped "group = tools\ndepend = glibc\n".toList = .ok pkg ∧ SyncReadable pkg ∧ ClientReadable pkg := by
  have back : (grouped "group = tools\ndepend = glibc\n".toList).toOption.any (fun pkg =>
      pkg.name ≠ [] ∧ pkg.version ≠ [] ∧ pkg.filename ≠ [] ∧ '\n' ∉ pkg.filename ∧
        pkg.filename.getLast? ≠ some '\r' ∧ parseUpstream (renderDesc pkg) = some (upstreamOf pkg) ∧
        parseLocal (renderDesc pkg) = some (localOf pkg)) = true := by decide
  cases read : PkgInfo.parse ("pkgname = flea\npkgver = 1.2.0-1\narch = x86_64\n".toList ++
      "group = tools\ndepend = glibc\n".toList) with
  | error e =>
      rw [grouped, read] at back
      cases back
  | ok info =>
      cases merged : merge info [] (hexEncode [171, 205]) 1024 "flea-1.2.0-1-x86_64.pkg.tar.zst".toList with
      | error e =>
          rw [grouped, read, Except.bind, merged] at back
          cases back
      | ok pkg =>
          rw [grouped, read, Except.bind, merged] at back
          obtain ⟨name, version, filename, one, noReturn, upstream, client⟩ := of_decide_eq_true back
          have iffs := desc_reads_back_iff read merged name version filename ⟨one, noReturn⟩ (by decide)
          exact ⟨pkg, by rw [grouped, read, Except.bind, merged], iffs.1.mp upstream, iffs.2.1.mp client⟩

/-- A group that is a header, and the group after it taken for the hash. -/
theorem not_reads_back :
    ∃ pkg, grouped "group = tools\ngroup = %SHA256SUM%\ngroup = evil\n".toList = .ok pkg ∧
      pkg.name ≠ [] ∧ pkg.version ≠ [] ∧ pkg.filename ≠ [] ∧ pkg.sha256 ≠ [] ∧ pkg.sha256 ≠ "evil".toList ∧
      parseUpstream (renderDesc pkg) = some { upstreamOf pkg with sha256 := "evil".toList } := by
  have misread : (grouped "group = tools\ngroup = %SHA256SUM%\ngroup = evil\n".toList).toOption.any (fun pkg =>
      pkg.name ≠ [] ∧ pkg.version ≠ [] ∧ pkg.filename ≠ [] ∧ pkg.sha256 ≠ [] ∧ pkg.sha256 ≠ "evil".toList ∧
        parseUpstream (renderDesc pkg) = some { upstreamOf pkg with sha256 := "evil".toList }) = true := by
    decide
  cases made : grouped "group = tools\ngroup = %SHA256SUM%\ngroup = evil\n".toList with
  | error e =>
      rw [made] at misread
      cases misread
  | ok pkg =>
      rw [made] at misread
      exact ⟨pkg, rfl, of_decide_eq_true misread⟩

end OmarchyPool.Repo
