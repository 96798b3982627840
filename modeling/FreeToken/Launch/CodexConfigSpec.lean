import FreeToken.Launch.CodexConfig
import FreeToken.Lib.Sieve

/-!
# What the migration takes out

By TOML, a line that begins with a bracket is the header of a table, also with a comment after
it, and the keys below belong to that table. The launcher's own two tables should go, and the
root line that selects its profile. The code sees a header only where the line also ends with a
bracket, and one of its own only where the line is that header letter by letter.
-/

namespace FreeToken.CodexConfig

/-! ### The entries of a configuration -/

/-- The line is a header or a key: not blank and no comment. -/
def isEntry (stripped : List Char) : Bool := stripped ≠ [] && stripped.head? ≠ some '#'

def entries (text : List Char) : List (List Char) := entriesOf isEntry (splitLines text)

def isHeader (entry : List Char) : Bool := entry.head? = some '['

/-- A part of a dotted key without its quotes. Escapes in it are left as they are. -/
def unquoted (part : List Char) : List Char :=
  if 2 ≤ part.length ∧ part.head? = part.getLast? ∧
      (part.head? = some '"' ∨ part.head? = some '\'') then part.tail.dropLast
  else part

/-- The dotted key between the brackets. -/
def headerKey (entry : List Char) : List (List Char) :=
  ((entry.tail.takeWhile (· ≠ ']')).splitOn '.').map fun part => unquoted (pyStrip part)

/-- The header names one of the launcher's tables. -/
def isOwn (entry : List Char) : Bool :=
  headerKey entry = ["profiles".toList, codexProfile] ||
    headerKey entry = ["model_providers".toList, codexProfile]

def isProfileLine (entry : List Char) : Bool :=
  isKeyLine "profile".toList (tomlString codexProfile) entry

/-- The table that a line belongs to. -/
inductive Table where
  | root
  | own
  | other
  deriving DecidableEq

/-- What should be kept: no table of the launcher's own, and no root line for its profile. -/
def tables : Sieve Table (List Char) where
  next table entry := if isHeader entry then (if isOwn entry then .own else .other) else table
  keep table entry := table = .other || (table = .root && !isProfileLine entry)

/-- The migration keeps just the entries that it should, and has nothing to do a second time. -/
def MigratesRight (text : List Char) : Prop :=
  entries (codexMigratedBaseConfigText text) = tables.run .root (entries text) ∧
    codexMigratedBaseConfigText (codexMigratedBaseConfigText text) =
      codexMigratedBaseConfigText text

instance (text : List Char) : Decidable (MigratesRight text) :=
  inferInstanceAs (Decidable (_ ∧ _))

/-- Where the code takes a line to be, by the last bracketed line. -/
inductive Segment where
  | root
  | dropped
  | other
  deriving DecidableEq

def segments : Sieve Segment (List Char) where
  next segment entry :=
    if isBracketed entry then
      (if entry = profilesHeader ∨ entry = providersHeader then .dropped else .other)
    else segment
  keep segment entry := segment = .other || (segment = .root && !isProfileLine entry)

/-- Each entry with the segment and the table it is in. -/
def entryPlaces (text : List Char) : List ((Segment × Table) × List Char) :=
  (segments.beside tables).places (.root, .root) (entries text)

/-- At each header the last bracketed line is one of the two headers just when the header names
one of the launcher's tables, and no other table has the profile line before any bracketed
line. -/
structure HeadersSeen (text : List Char) : Prop where
  headers : ∀ place ∈ entryPlaces text, isHeader place.2 →
    (place.1.1 = .dropped ↔ isOwn place.2)
  profiles : ∀ place ∈ entryPlaces text, place.1 = (.root, .other) → isProfileLine place.2 = false

/-! ### The three passes as sieves -/

def sections (header : List Char) : Sieve Bool (List Char) where
  next skipping entry :=
    if entry = header then true else if isBracketed entry then false else skipping
  keep skipping _ := !skipping

def rootLines : Sieve Bool (List Char) where
  next inRoot entry := if isBracketed entry then false else inRoot
  keep inRoot entry := !(inRoot && isProfileLine entry)

theorem sectionKept_eq (header : List Char) (skipping : Bool) (lines : List (List Char)) :
    sectionKept header skipping lines = ((sections header).on pyStrip).run skipping lines := by
  induction lines generalizing skipping with
  | nil => rfl
  | cons line lines ih =>
      by_cases hheader : pyStrip line = header
      · simp [sectionKept, Sieve.run, Sieve.on, sections, hheader, ih]
      · cases skipping <;> by_cases hbracket : isBracketed (pyStrip line) = true <;>
          simp [sectionKept, Sieve.run, Sieve.on, sections, hheader, hbracket, ih]

theorem rootValueKept_eq (inRoot : Bool) (lines : List (List Char)) :
    rootValueKept "profile".toList (tomlString codexProfile) inRoot lines =
      (rootLines.on pyStrip).run inRoot lines := by
  induction lines generalizing inRoot with
  | nil => rfl
  | cons line lines ih =>
      cases inRoot <;> by_cases hbracket : isBracketed (pyStrip line) = true <;>
        by_cases hprofile : isProfileLine (pyStrip line) = true <;>
          simp_all [rootValueKept, Sieve.run, Sieve.on, rootLines, isProfileLine]

/-- What a pass returns: the kept lines without the space around them, ended by some newlines. -/
def finish (after result : List Char) : List Char := if result = [] then [] else result ++ after

def pass {σ : Type} (S : Sieve σ (List Char)) (s : σ) (after text : List Char) : List Char :=
  finish after (pyStrip (joinLines ((S.on pyStrip).run s (splitLines text))))

theorem removeTomlSection_eq (text header : List Char) :
    removeTomlSection text header = pass (sections header) false ['\n', '\n'] text := by
  rw [removeTomlSection, pass, sectionKept_eq]
  rfl

theorem codexMigratedBaseConfigText_eq (existing : List Char) :
    codexMigratedBaseConfigText existing =
      pass rootLines true ['\n'] (pass (sections providersHeader) false ['\n', '\n']
        (pass (sections profilesHeader) false ['\n', '\n'] existing)) := by
  simp only [codexMigratedBaseConfigText, removeTomlSection_eq, removeTomlRootStringValue,
    rootValueKept_eq]
  rfl

/-! ### Lines that are no entries -/

/-- A line that begins with something else than the key does not give the key. -/
theorem isKeyLine_of_head {key expected entry : List Char} {c : Char} (hhead : entry.head? = some c)
    (hspace : isSpace c = false) (hequals : c ≠ '=') (hkey : c ∉ key) :
    isKeyLine key expected entry = false := by
  obtain ⟨cs, rfl⟩ := List.head?_eq_some_iff.mp hhead
  have hmem : c ∈ pyStrip ((c :: cs).takeWhile (· ≠ '=')) := by
    refine mem_pyStrip ?_ hspace
    simp [hequals]
  have hne : pyStrip ((c :: cs).takeWhile (· ≠ '=')) ≠ key := fun h => hkey (h ▸ hmem)
  simp only [isKeyLine, hne, decide_false, Bool.false_and, Bool.and_false]

theorem isProfileLine_of_header {entry : List Char} (h : isHeader entry = true) :
    isProfileLine entry = false :=
  isKeyLine_of_head (of_decide_eq_true h) (by decide) (by decide) (by decide)

theorem isHeader_of_isBracketed {entry : List Char} (h : isBracketed entry = true) :
    isHeader entry = true :=
  ((Bool.and_eq_true _ _).mp h).1

theorem isProfileLine_of_isBracketed {entry : List Char} (h : isBracketed entry = true) :
    isProfileLine entry = false :=
  isProfileLine_of_header (isHeader_of_isBracketed h)

/-- Blank lines and comments are neither bracketed nor the profile line. -/
theorem of_not_isEntry {line : List Char} (h : isEntry line = false) :
    isBracketed line = false ∧ isProfileLine line = false := by
  have hcases : line = [] ∨ line.head? = some '#' := by
    by_cases hnil : line = []
    · exact .inl hnil
    · simpa [isEntry, hnil] using h
  rcases hcases with rfl | hhead
  · exact ⟨rfl, rfl⟩
  · refine ⟨?_, isKeyLine_of_head hhead (by decide) (by decide) (by decide)⟩
    simp [isBracketed, hhead]

theorem isBracketed_headers {entry : List Char} (h : entry = profilesHeader ∨ entry = providersHeader) :
    isBracketed entry = true := by
  rcases h with rfl | rfl <;> decide

theorem sections_skip {header : List Char} (hheader : isBracketed header = true) (skipping : Bool)
    {line : List Char} (h : isEntry line = false) : (sections header).next skipping line = skipping := by
  have hne : line ≠ header := by
    rintro rfl
    simp [(of_not_isEntry h).1] at hheader
  simp [sections, hne, (of_not_isEntry h).1]

theorem rootLines_skip (inRoot : Bool) {line : List Char} (h : isEntry line = false) :
    rootLines.next inRoot line = inRoot ∧ rootLines.keep inRoot line = true := by
  simp [rootLines, of_not_isEntry h]

/-! ### One pass over the text -/

theorem unbroken_run {σ : Type} (S : Sieve σ (List Char)) (s : σ) (text : List Char) :
    ∀ line ∈ (S.on pyStrip).run s (splitLines text), Unbroken line := fun _ hline =>
  unbroken_of_mem_splitLines (((S.on pyStrip).run_sublist s _).subset hline)

theorem isSpace_of_newlines {after : List Char} (hafter : ∀ c ∈ after, c = '\n') :
    ∀ c ∈ after, isSpace c = true := by
  intro c hc
  rw [hafter c hc]
  decide

theorem entries_finish {after : List Char} (hafter : ∀ c ∈ after, c = '\n')
    (result : List Char) : entries (finish after (pyStrip result)) = entries result := by
  have hstrip : entriesOf isEntry (splitLines (pyStrip result)) =
      entriesOf isEntry (splitLines result) := entriesOf_pyStrip rfl result
  rw [finish]
  split
  · rename_i hnil
    rw [entries, entries, ← hstrip, hnil]
  · rw [entries, entriesOf_append_isSpace rfl _ (isSpace_of_newlines hafter), hstrip, entries]

/-- The entries of what a pass returns are those that its sieve keeps. -/
theorem entries_pass {σ : Type} {S : Sieve σ (List Char)}
    (hskip : ∀ s line, isEntry line = false → S.next s line = s) (s : σ) {after : List Char}
    (hafter : ∀ c ∈ after, c = '\n') (text : List Char) :
    entries (pass S s after text) = S.run s (entries text) := by
  rw [pass, entries_finish hafter, entries, entriesOf_joinLines rfl (unbroken_run S s text),
    entriesOf, S.map_run_on, Sieve.filter_run hskip]
  rfl

/-- The entries of the migrated text, by the three passes. -/
theorem entries_migrated (text : List Char) :
    entries (codexMigratedBaseConfigText text) =
      rootLines.run true ((sections providersHeader).run false
        ((sections profilesHeader).run false (entries text))) := by
  rw [codexMigratedBaseConfigText_eq,
    entries_pass (fun s _ h => (rootLines_skip s h).1) true (by simp),
    entries_pass (fun s _ h => sections_skip (by decide) s h) false (by simp),
    entries_pass (fun s _ h => sections_skip (by decide) s h) false (by simp)]

/-- The segment by what the three passes have seen. -/
inductive Follows : Bool × Bool × Bool → Segment → Prop
  | root : Follows (false, false, true) .root
  | dropped {first second inRoot : Bool} (h : first = true ∨ second = true) :
      Follows (first, second, inRoot) .dropped
  | other : Follows (false, false, false) .other

theorem providersHeader_ne : providersHeader ≠ profilesHeader := by decide

/-- Each pass is one sieve over what the pass before it keeps, and together they follow the
segments. -/
theorem run_three_passes (lines : List (List Char)) :
    rootLines.run true ((sections providersHeader).run false
      ((sections profilesHeader).run false lines)) = segments.run .root lines := by
  rw [← Sieve.run_andThen, ← Sieve.run_andThen]
  refine Sieve.run_eq_of_related Follows ?_ .root lines
  rintro ⟨first, second, inRoot⟩ segment entry hfollows
  by_cases hbracket : isBracketed entry = true
  · have hprofile := isProfileLine_of_isBracketed hbracket
    by_cases hfirst : entry = profilesHeader
    · subst hfirst
      refine ⟨?_, ?_⟩
      · simpa [Sieve.andThen, sections, segments, hbracket] using .dropped (.inl rfl)
      · simp [Sieve.andThen, sections, segments, hbracket]
    · by_cases hsecond : entry = providersHeader
      · subst hsecond
        refine ⟨?_, ?_⟩
        · simpa [Sieve.andThen, sections, segments, hbracket, providersHeader_ne] using
            .dropped (.inr rfl)
        · simp [Sieve.andThen, sections, segments, hbracket, providersHeader_ne]
      · refine ⟨?_, ?_⟩
        · simpa [Sieve.andThen, sections, segments, rootLines, hbracket, hfirst, hsecond] using
            .other
        · simp [Sieve.andThen, sections, segments, rootLines, hbracket, hfirst, hsecond]
  · have hfirst : entry ≠ profilesHeader := fun h => hbracket (isBracketed_headers (.inl h))
    have hsecond : entry ≠ providersHeader := fun h => hbracket (isBracketed_headers (.inr h))
    cases hfollows with
    | root =>
        refine ⟨?_, ?_⟩
        · simpa [Sieve.andThen, sections, segments, rootLines, hbracket, hfirst, hsecond] using
            .root
        · simp [Sieve.andThen, sections, segments, rootLines, hbracket, hfirst, hsecond]
    | dropped h =>
        have hnot : isBracketed entry = false := by simpa using hbracket
        cases first with
        | true =>
            refine ⟨?_, ?_⟩
            · simpa [Sieve.andThen, sections, segments, hnot, hfirst] using .dropped (.inl rfl)
            · simp [Sieve.andThen, sections, segments, hnot, hfirst]
        | false =>
            obtain rfl : second = true := by simpa using h
            refine ⟨?_, ?_⟩
            · simpa [Sieve.andThen, sections, segments, hnot, hfirst, hsecond] using
                .dropped (.inr rfl)
            · simp [Sieve.andThen, sections, segments, hnot, hfirst, hsecond]
    | other =>
        refine ⟨?_, ?_⟩
        · simpa [Sieve.andThen, sections, segments, rootLines, hbracket, hfirst, hsecond] using
            .other
        · simp [Sieve.andThen, sections, segments, rootLines, hbracket, hfirst, hsecond]

theorem entries_migrated_eq (text : List Char) :
    entries (codexMigratedBaseConfigText text) = segments.run .root (entries text) := by
  rw [entries_migrated, run_three_passes]

/-! ### Migrating twice -/

theorem header_notMem_run (header : List Char) (skipping : Bool) (lines : List (List Char)) :
    header ∉ (sections header).run skipping lines := by
  induction lines generalizing skipping with
  | nil => simp [Sieve.run]
  | cons line lines ih =>
      rw [Sieve.run]
      split
      · rename_i hkeep
        have hne : header ≠ line := by
          rintro rfl
          simp [sections] at hkeep
        exact List.not_mem_cons_of_ne_of_not_mem hne (ih _)
      · exact ih _

theorem sections_run_of_notMem {header : List Char} {lines : List (List Char)}
    (h : header ∉ lines) : (sections header).run false lines = lines := by
  induction lines with
  | nil => rfl
  | cons line lines ih =>
      have hne : line ≠ header := fun heq => h (heq ▸ List.mem_cons_self)
      have hrest : header ∉ lines := fun hmem => h (List.mem_cons_of_mem line hmem)
      have hnext : (sections header).next false line = false := by simp [sections, hne]
      have hkeep : (sections header).keep false line = true := rfl
      rw [Sieve.run, hnext, if_pos hkeep, ih hrest]

theorem rootLines_run_run (inRoot : Bool) (lines : List (List Char)) :
    rootLines.run inRoot (rootLines.run inRoot lines) = rootLines.run inRoot lines := by
  rw [← Sieve.run_andThen]
  refine Sieve.run_eq_of_related (fun both inRoot => both = (inRoot, inRoot)) ?_ rfl lines
  rintro both inRoot entry rfl
  by_cases hbracket : isBracketed entry = true
  · simp [Sieve.andThen, rootLines, hbracket]
  · by_cases hkeep : (inRoot && isProfileLine entry) = true
    · simp [Sieve.andThen, rootLines, hbracket]
    · simp [Sieve.andThen, rootLines, hbracket]

variable {after after' result : List Char}

theorem pyStrip_finish (hafter : ∀ c ∈ after, isSpace c = true) (hresult : pyStrip result = result) :
    pyStrip (finish after result) = result := by
  rw [finish]
  split
  · rename_i hnil
    rw [hnil]
    rfl
  · rw [pyStrip_append_right _ hafter, hresult]

theorem newlineText_finish (hafter : ∀ c ∈ after, c = '\n') (hresult : NewlineText result) :
    NewlineText (finish after result) := by
  intro c hc hbreak
  rw [finish] at hc
  split at hc
  · simp at hc
  · rcases List.mem_append.mp hc with hc | hc
    · exact hresult c hc hbreak
    · exact hafter c hc

/-- A pass whose sieve drops no line only changes the newlines at the end. -/
theorem pass_finish {σ : Type} {S : Sieve σ (List Char)} {s : σ} (hafter : ∀ c ∈ after, c = '\n')
    (hnewline : NewlineText result) (hresult : pyStrip result = result)
    (hrun : S.run s ((splitLines (finish after result)).map pyStrip) =
      (splitLines (finish after result)).map pyStrip) :
    pass S s after' (finish after result) = finish after' result := by
  rw [pass, Sieve.run_on_eq_self hrun, pyStrip_joinLines_splitLines (newlineText_finish hafter hnewline),
    pyStrip_finish (isSpace_of_newlines hafter) hresult]

theorem entries_finish_self (hafter : ∀ c ∈ after, c = '\n') (hresult : pyStrip result = result) :
    entries (finish after result) = entries result := by
  have := entries_finish hafter result
  rwa [hresult] at this

theorem pass_sections_finish {header : List Char} (hheader : isEntry header = true)
    (hafter : ∀ c ∈ after, c = '\n') (hnewline : NewlineText result)
    (hresult : pyStrip result = result) (hmem : header ∉ entries result) :
    pass (sections header) false after' (finish after result) = finish after' result := by
  refine pass_finish hafter hnewline hresult (sections_run_of_notMem fun hline => hmem ?_)
  rw [← entries_finish_self hafter hresult]
  exact List.mem_filter.mpr ⟨hline, hheader⟩

theorem pass_rootLines_finish (hafter : ∀ c ∈ after, c = '\n') (hnewline : NewlineText result)
    (hresult : pyStrip result = result)
    (hrun : rootLines.run true (entries result) = entries result) :
    pass rootLines true after' (finish after result) = finish after' result := by
  refine pass_finish hafter hnewline hresult
    (Sieve.run_eq_self (p := isEntry) (fun s _ h => rootLines_skip s h) ?_)
  rw [← entries_finish_self hafter hresult] at hrun
  exact hrun

/-- The migrated text has no entry for a second migration to take out. -/
theorem migrated_twice (text : List Char) :
    codexMigratedBaseConfigText (codexMigratedBaseConfigText text) =
      codexMigratedBaseConfigText text := by
  have hmigrated := codexMigratedBaseConfigText_eq text
  have hentries := entries_migrated text
  generalize hsecond : pass (sections providersHeader) false ['\n', '\n']
    (pass (sections profilesHeader) false ['\n', '\n'] text) = second at hmigrated
  rw [pass] at hmigrated
  set result := pyStrip (joinLines ((rootLines.on pyStrip).run true (splitLines second)))
    with hresult
  have hstripped : pyStrip result = result := by rw [hresult, pyStrip_pyStrip]
  have hnewline : NewlineText result := fun c hc =>
    newlineText_joinLines (unbroken_run rootLines true second) c (mem_of_mem_pyStrip hc)
  rw [hmigrated, entries_finish_self (by simp) hstripped] at hentries
  have hfirst : profilesHeader ∉ entries result := fun hmem => by
    rw [hentries] at hmem
    exact header_notMem_run _ _ _
      ((Sieve.run_sublist _ _ _).subset ((Sieve.run_sublist _ _ _).subset hmem))
  have hsecond : providersHeader ∉ entries result := fun hmem => by
    rw [hentries] at hmem
    exact header_notMem_run _ _ _ ((Sieve.run_sublist _ _ _).subset hmem)
  have hroot : rootLines.run true (entries result) = entries result := by
    rw [hentries, rootLines_run_run]
  rw [hmigrated, codexMigratedBaseConfigText_eq,
    pass_sections_finish (by decide) (by simp) hnewline hstripped hfirst,
    pass_sections_finish (by decide) (by simp) hnewline hstripped hsecond,
    pass_rootLines_finish (by simp) hnewline hstripped hroot]

/-! ### Segments against tables -/

variable {text : List Char} {place : (Segment × Table) × List Char}

/-- At a header the table is the one it names. -/
theorem table_of_header (hplace : place ∈ entryPlaces text) (hheader : isHeader place.2 = true) :
    place.1.2 = if isOwn place.2 then .own else .other := by
  obtain ⟨states, hstates⟩ := Sieve.exists_next_of_mem_places hplace
  rw [hstates]
  simp [Sieve.beside, tables, hheader]

/-- In no table yet, the code has seen no header either. -/
theorem root_of_root (hplace : place ∈ entryPlaces text) (htable : place.1.2 = .root) :
    place.1.1 = .root := by
  revert htable
  refine Sieve.forall_places (I := fun states => states.2 = .root → states.1 = .root)
    (Q := fun _ => True) ?_ (fun _ => rfl) (fun _ _ => trivial) place hplace
  intro states entry _ hI
  by_cases hheader : isHeader entry = true
  · by_cases hown : isOwn entry = true
    · simp [Sieve.beside, tables, hheader, hown]
    · simp [Sieve.beside, tables, hheader, hown]
  · have hbracket : ¬ isBracketed entry = true := fun h => hheader (isHeader_of_isBracketed h)
    simpa [Sieve.beside, tables, segments, hheader, hbracket] using hI

/-- Where the headers are seen right, the code drops a line just in the launcher's tables. -/
theorem dropped_iff_own (hheaders : ∀ place ∈ entryPlaces text, isHeader place.2 →
    (place.1.1 = .dropped ↔ isOwn place.2)) (hplace : place ∈ entryPlaces text) :
    place.1.1 = .dropped ↔ place.1.2 = .own := by
  refine Sieve.forall_places (I := fun states => states.1 = .dropped ↔ states.2 = .own)
    (Q := fun place => isHeader place.2 → (place.1.1 = .dropped ↔ isOwn place.2)) ?_ ?_
    hheaders place hplace
  · intro states entry hseen hI
    by_cases hheader : isHeader entry = true
    · refine (hseen hheader).trans ?_
      by_cases hown : isOwn entry = true
      · simp [Sieve.beside, tables, hheader, hown]
      · simp [Sieve.beside, tables, hheader, hown]
    · have hbracket : ¬ isBracketed entry = true := fun h => hheader (isHeader_of_isBracketed h)
      simpa [Sieve.beside, tables, segments, hheader, hbracket] using hI
  · simp

theorem own_notMem_run (table : Table) (lines : List (List Char)) {entry : List Char}
    (hheader : isHeader entry = true) (hown : isOwn entry = true) :
    entry ∉ tables.run table lines := by
  induction lines generalizing table with
  | nil => simp [Sieve.run]
  | cons line lines ih =>
      rw [Sieve.run]
      split
      · rename_i hkeep
        have hne : entry ≠ line := by
          rintro rfl
          simp [tables, hheader, hown] at hkeep
        exact List.not_mem_cons_of_ne_of_not_mem hne (ih _)
      · exact ih _

/-- What the code keeps at a header: all that is not dropped. -/
theorem keep_of_header {segment : Segment} {entry : List Char} (hheader : isHeader entry = true) :
    segments.keep segment entry = true ↔ segment ≠ .dropped := by
  cases segment <;> simp [segments, isProfileLine_of_header hheader]

/-- When the right entries are kept, the headers were seen right: no header of the launcher's
tables is kept, so the others have to be kept each at its own place. -/
theorem headers_of_run_eq (h : segments.run .root (entries text) = tables.run .root (entries text)) :
    ∀ place ∈ entryPlaces text, isHeader place.2 → (place.1.1 = .dropped ↔ isOwn place.2) := by
  have hdropped : ∀ place ∈ entryPlaces text, isHeader place.2 = true → isOwn place.2 = true →
      segments.keep place.1.1 place.2 = false := by
    intro place hplace hheader hown
    refine Bool.eq_false_iff.mpr fun hkeep => own_notMem_run .root (entries text) hheader hown ?_
    rw [← h, Sieve.run_eq_beside_left segments tables .root .root]
    exact List.mem_map.mpr ⟨place, List.mem_filter.mpr ⟨hplace, hkeep⟩, rfl⟩
  have hkept : ∀ place ∈ entryPlaces text, isHeader place.2 = true → isOwn place.2 = false →
      tables.keep place.1.2 place.2 = true := by
    intro place hplace hheader hown
    simp [tables, table_of_header hplace hheader, hown]
  have hagree := Sieve.agree_of_filter_run_eq (S := segments) (T := tables) (p := isHeader)
    (fun place hplace hheader hkeep => hkept place hplace hheader (Bool.eq_false_iff.mpr fun hown =>
      absurd (hdropped place hplace hheader hown) (by simp [hkeep])))
    (congrArg (List.filter isHeader) h)
  intro place hplace hheader
  by_cases hown : isOwn place.2 = true
  · have hkeep := hdropped place hplace hheader hown
    have hkept := (@keep_of_header place.1.1 place.2 hheader).not
    rw [hkeep] at hkept
    simpa [hown] using hkept
  · have hkeep := hagree place hplace hheader
      (hkept place hplace hheader (by simpa using hown))
    simp [hown, (keep_of_header hheader).mp hkeep]

/-- Where the headers are seen right, the code keeps nothing that should go. -/
theorem keep_of_keep (hheaders : ∀ place ∈ entryPlaces text, isHeader place.2 →
    (place.1.1 = .dropped ↔ isOwn place.2)) (hplace : place ∈ entryPlaces text)
    (hkeep : segments.keep place.1.1 place.2 = true) : tables.keep place.1.2 place.2 = true := by
  have hown := dropped_iff_own hheaders hplace
  have hroot := root_of_root hplace
  cases htable : place.1.2 with
  | root =>
      rw [hroot htable] at hkeep
      simpa [segments, tables] using hkeep
  | own =>
      rw [hown.mpr htable] at hkeep
      simp [segments] at hkeep
  | other => simp [tables]

/-- The migration does what it should just where the code sees each header for what it is. -/
theorem migratesRight_iff (text : List Char) : MigratesRight text ↔ HeadersSeen text := by
  rw [MigratesRight, entries_migrated_eq, and_iff_left (migrated_twice text)]
  constructor
  · intro h
    have hheaders := headers_of_run_eq h
    have hagree := Sieve.agree_of_filter_run_eq (S := segments) (T := tables) (p := fun _ => true)
      (fun place hplace _ => keep_of_keep hheaders hplace) (congrArg (List.filter _) h)
    refine ⟨hheaders, fun place hplace hroot => ?_⟩
    have hkeep := hagree place hplace rfl (by simp [tables, hroot])
    simpa [segments, hroot] using hkeep
  · intro hseen
    refine Sieve.run_eq_of_agree fun place hplace => ?_
    have hown := dropped_iff_own hseen.headers hplace
    have hroot := root_of_root hplace
    have hprofile := hseen.profiles place hplace
    obtain ⟨⟨segment, table⟩, entry⟩ := place
    cases segment <;> cases table <;> simp_all [segments, tables]

/-- A comment after a header hides it, and the table goes with the profile before it. -/
theorem commented_header_lost : ¬ MigratesRight
    ("[profiles.freetoken-launch]\nmodel = \"m\"\n\n" ++
      "[mcp_servers.docs] # local\ncommand = \"docs\"\n").toList := by
  decide +kernel

end FreeToken.CodexConfig
