import Mathlib.Data.Finset.Erase
import Mathlib.Data.Finset.Insert
import Plain.Foundation.Bytes
import Plain.Foundation.Machine

/-! # Plugins and their libraries

The library manager looks a plugin's file up under its names in the search paths and keeps
the loaded library in a map. Looking into the map inserts a null entry first, and a failed
load leaves it there for `unload` to follow. What the file system and the dynamic loader
answer is up to them; what a plugin's own entry function does is not modelled.
-/

namespace Plain

def libraryPrefix : List Byte := [0x6C, 0x69, 0x62]

def librarySuffix : List Byte := [0x2E, 0x73, 0x6F]

inductive Attempt where
  | missing
  | refused (error : List Byte)
  | opened (handle : ℕ)
  deriving Repr, DecidableEq

/-- Whether a library is held behind an answer, if one was held or not before it. -/
def Attempt.holds (held : Bool) : Attempt → Bool
  | .missing => held
  | .refused _ => false
  | .opened _ => true

/-- A file was opened, and behind the last one opened all files were missing. -/
def Attempt.EndOpened (answers : List Attempt) : Prop :=
  ∃ before handle after, answers = before ++ .opened handle :: after ∧ ∀ a ∈ after, a = .missing

theorem Attempt.foldl_holds_iff (answers : List Attempt) :
    answers.foldl holds false = true ↔ EndOpened answers := by
  induction answers using List.reverseRecOn with
  | nil => simp [EndOpened]
  | append_singleton answers answer ih =>
    rw [List.foldl_concat]
    constructor
    · intro hheld
      cases answer with
      | missing =>
        obtain ⟨before, handle, after, rfl, hafter⟩ := ih.mp hheld
        refine ⟨before, handle, after ++ [.missing], by simp, ?_⟩
        simpa [or_imp, forall_and] using hafter
      | refused error => cases hheld
      | opened handle => exact ⟨answers, handle, [], rfl, by simp⟩
    · rintro ⟨before, handle, after, heq, hafter⟩
      rcases List.eq_nil_or_concat after with rfl | ⟨after, last, rfl⟩
      · obtain ⟨-, rfl⟩ := List.append_inj' heq rfl |>.imp_right List.singleton_inj.mp
        rfl
      · rw [List.concat_eq_append] at heq hafter
        rw [← List.cons_append, ← List.append_assoc] at heq
        obtain ⟨rfl, hlast⟩ := List.append_inj' heq rfl
        obtain rfl := List.singleton_inj.mp hlast
        rw [hafter answer (by simp)]
        exact ih.mpr ⟨before, handle, after, rfl, fun a ha => hafter a (by simp [ha])⟩

/-- The answers of the system during one call of `LibraryManager::load`: to the tries to open
a file, in their order, and to the questions for a symbol, with an error if there is none. -/
structure Loader where
  dlopen : ℕ → List Byte → Bool → Attempt
  dlsym : List Byte → Option (List Byte)

structure Library where
  errorstr : List Byte
  filename : List Byte
  path : List Byte
  isloaded : Bool
  handle : Option ℕ
  deriving Repr, DecidableEq

namespace Library

def new : Library := ⟨[], [], [], false, none⟩

def rfind (pattern text : List Byte) : Option ℕ :=
  (List.range (text.length + 1)).reverse.find? fun i => pattern.isPrefixOf (text.drop i)

def setFilename (lib : Library) (filename : List Byte) : Library :=
  if filename.length < librarySuffix.length then
    { lib with filename := filename ++ librarySuffix }
  else
    match rfind librarySuffix filename with
    | none => { lib with filename := filename ++ librarySuffix }
    | some pos =>
        if filename.length < pos + librarySuffix.length ∧
            (filename.drop (pos + librarySuffix.length)).take 1 ≠ [0x2E] then
          { lib with filename := filename ++ librarySuffix }
        else { lib with filename := filename }

def setPath (lib : Library) (path : List Byte) : Library := { lib with path := path }

/-- The file is opened if it exists. A missing file leaves the handle as it was. -/
def tryOpen (lib : Library) : Attempt → Library
  | .missing => lib
  | .refused error => { lib with handle := none, errorstr := error }
  | .opened handle => { lib with handle := some handle }

/-- `load` without the second try under the prefixed name. -/
def loadFile (loader : Loader) (lib : Library) (seeglb : Bool) (tries : ℕ) : Bool × Library :=
  let lib := lib.tryOpen (loader.dlopen tries (lib.path ++ lib.filename) seeglb)
  if lib.handle.isSome then (true, { lib with errorstr := [], isloaded := true })
  else (false, lib)

/-- `load`, with the tries made so far. The second try drops `seeglb`. -/
def load (loader : Loader) (lib : Library) (tryPrefix seeglb : Bool) (tries : ℕ) :
    Bool × Library × ℕ :=
  let first := lib.loadFile loader seeglb tries
  let lib := first.2
  if first.1 then (true, lib, tries + 1)
  else if tryPrefix = false ∨ libraryPrefix.isPrefixOf lib.filename then (false, lib, tries + 1)
  else
    let lib := { lib with filename := libraryPrefix ++ lib.filename }
    let second := lib.loadFile loader false (tries + 1)
    (second.1, second.2, tries + 2)

/-- `unload`; `closed` is the error of `dlclose`, if it has one. -/
def unload (lib : Library) (closed : Option (List Byte)) : Bool × Library :=
  if lib.handle.isSome then
    match closed with
    | some error => (false, { lib with errorstr := error })
    | none => (true, { lib with errorstr := [], handle := none })
  else (true, lib)

/-- `resolve`, also tried with an underscore in front of the symbol. -/
def resolve (loader : Loader) (lib : Library) (symbol : List Byte) : Library :=
  match loader.dlsym symbol with
  | none => { lib with errorstr := [] }
  | some _ =>
      match loader.dlsym (0x5F :: symbol) with
      | none => { lib with errorstr := [] }
      | some error => { lib with errorstr := error }

def searchPaths (loader : Loader) (seeglb : Bool) :
    List (List Byte) → Library → ℕ → Library × ℕ
  | [], lib, tries => (lib, tries)
  | path :: paths, lib, tries =>
      let r := (lib.setPath path).load loader true seeglb tries
      if r.1 then (r.2.1, r.2.2) else searchPaths loader seeglb paths r.2.1 r.2.2

/-- Every name is searched for, also after one was found. -/
def searchNames (loader : Loader) (seeglb : Bool) (paths : List (List Byte)) :
    List (List Byte) → Library → ℕ → Library
  | [], lib, _ => lib
  | name :: names, lib, tries =>
      let r := searchPaths loader seeglb paths (lib.setFilename name) tries
      searchNames loader seeglb paths names r.1 r.2

/-- The files that are tried for a file name, and whether their symbols are to be global.
Only the first path is tried without the prefix, and only once with it. -/
def candidates (seeglb : Bool) (paths : List (List Byte)) (filename : List Byte) :
    List (List Byte × Bool) :=
  match paths with
  | [] => []
  | path :: paths =>
      let prefixed := libraryPrefix ++ filename
      if libraryPrefix.isPrefixOf filename then
        (path :: paths).map fun path => (path ++ filename, seeglb)
      else (path ++ filename, seeglb) :: (path ++ prefixed, false) ::
        paths.map fun path => (path ++ prefixed, seeglb)

/-- The answers to the tries for one name, which end when a library is held. -/
def answersFor (loader : Loader) : List (List Byte × Bool) → Bool → ℕ → List Attempt
  | [], _, _ => []
  | (file, seeglb) :: files, held, tries =>
      let answer := loader.dlopen tries file seeglb
      if answer.holds held then [answer]
      else answer :: answersFor loader files false (tries + 1)

def answers (loader : Loader) (seeglb : Bool) (paths : List (List Byte)) :
    List (List Byte) → Bool → ℕ → List Attempt
  | [], _, _ => []
  | name :: names, held, tries =>
      let filename := (new.setFilename name).filename
      let tried := answersFor loader (candidates seeglb paths filename) held tries
      tried ++ answers loader seeglb paths names (tried.foldl Attempt.holds held)
        (tries + tried.length)

section Answers

variable {lib : Library} {loader : Loader} {seeglb : Bool} {tries : ℕ}

theorem filename_setFilename (lib : Library) (name : List Byte) :
    (lib.setFilename name).filename = (new.setFilename name).filename := by
  unfold setFilename
  split
  · rfl
  · split
    · rfl
    · split <;> rfl

theorem handle_setFilename (lib : Library) (name : List Byte) :
    (lib.setFilename name).handle = lib.handle := by
  unfold setFilename
  split
  · rfl
  · split
    · rfl
    · split <;> rfl

theorem loadFile_spec (loader : Loader) (lib : Library) (seeglb : Bool) (tries : ℕ) :
    let answer := loader.dlopen tries (lib.path ++ lib.filename) seeglb
    let r := lib.loadFile loader seeglb tries
    r.1 = answer.holds lib.handle.isSome ∧
      r.2.handle.isSome = answer.holds lib.handle.isSome ∧ r.2.filename = lib.filename ∧
      r.2.path = lib.path := by
  unfold loadFile
  cases loader.dlopen tries (lib.path ++ lib.filename) seeglb with
  | missing =>
    dsimp only [tryOpen, Attempt.holds]
    cases hhandle : lib.handle <;> simp [hhandle]
  | refused error => simp [tryOpen, Attempt.holds]
  | opened handle => simp [tryOpen, Attempt.holds]

/-- What a search of paths ends with follows from the answers to its tries. -/
def Follows (r : Library × ℕ) (held : Bool) (tries : ℕ) (tried : List Attempt) : Prop :=
  r.1.handle.isSome = tried.foldl Attempt.holds held ∧ r.2 = tries + tried.length

theorem follows_found {r : Library × ℕ} {held : Bool} {file : List Byte}
    {files : List (List Byte × Bool)}
    (hholds : (loader.dlopen tries file seeglb).holds held = true)
    (hr : r.1.handle.isSome = true) (htries : r.2 = tries + 1) :
    Follows r held tries (answersFor loader ((file, seeglb) :: files) held tries) := by
  rw [answersFor, if_pos hholds]
  exact ⟨hr.trans hholds.symm, htries⟩

theorem follows_cons {r : Library × ℕ} {held : Bool} {file : List Byte}
    {files : List (List Byte × Bool)}
    (hholds : (loader.dlopen tries file seeglb).holds held = false)
    (h : Follows r false (tries + 1) (answersFor loader files false (tries + 1))) :
    Follows r held tries (answersFor loader ((file, seeglb) :: files) held tries) := by
  obtain ⟨hheld, htries⟩ := h
  rw [answersFor, hholds, if_neg Bool.false_ne_true]
  refine ⟨?_, ?_⟩
  · rw [List.foldl_cons, hholds]
    exact hheld
  · rw [htries, List.length_cons]
    omega

section Load

variable (hfirst : (lib.loadFile loader seeglb tries).1 = false)

include hfirst

theorem load_of_prefixed
    (hlib : libraryPrefix.isPrefixOf (lib.loadFile loader seeglb tries).2.filename = true) :
    lib.load loader true seeglb tries =
      (false, (lib.loadFile loader seeglb tries).2, tries + 1) := by
  simp [load, hfirst, hlib]

theorem load_of_not_prefixed
    (hlib : ¬ libraryPrefix.isPrefixOf (lib.loadFile loader seeglb tries).2.filename = true) :
    lib.load loader true seeglb tries =
      let lib := (lib.loadFile loader seeglb tries).2
      let second := { lib with filename := libraryPrefix ++ lib.filename }.loadFile loader false
        (tries + 1)
      (second.1, second.2, tries + 2) := by
  simp [load, hfirst, hlib]

end Load

theorem load_of_first (hfirst : (lib.loadFile loader seeglb tries).1 = true) :
    lib.load loader true seeglb tries =
      (true, (lib.loadFile loader seeglb tries).2, tries + 1) := by
  simp [load, hfirst]

theorem isPrefixOf_append_self (filename : List Byte) :
    libraryPrefix.isPrefixOf (libraryPrefix ++ filename) = true :=
  List.isPrefixOf_iff_prefix.mpr (List.prefix_append _ _)

theorem follows_searchPaths_prefixed (loader : Loader) (seeglb : Bool)
    (hlib : libraryPrefix.isPrefixOf lib.filename = true) (paths : List (List Byte)) (tries : ℕ) :
    Follows (searchPaths loader seeglb paths lib tries) lib.handle.isSome tries
      (answersFor loader (paths.map fun path => (path ++ lib.filename, seeglb))
        lib.handle.isSome tries) := by
  induction paths generalizing lib tries with
  | nil => exact ⟨rfl, rfl⟩
  | cons path paths ih =>
    obtain ⟨hok, hheld, hname, -⟩ := loadFile_spec loader (lib.setPath path) seeglb tries
    rw [searchPaths]
    cases hholds : (loader.dlopen tries (path ++ lib.filename) seeglb).holds lib.handle.isSome with
    | true =>
      rw [load_of_first (hok.trans hholds), if_pos rfl]
      exact follows_found hholds (hheld.trans hholds) rfl
    | false =>
      have hlib' := hname.symm ▸ hlib
      rw [load_of_prefixed (hok.trans hholds) hlib', if_neg Bool.false_ne_true]
      have hnext := ih hlib' (tries + 1)
      rw [hname, hheld.trans hholds] at hnext
      exact follows_cons hholds hnext

theorem follows_searchPaths (loader : Loader) (seeglb : Bool) (paths : List (List Byte))
    (lib : Library) (tries : ℕ) :
    Follows (searchPaths loader seeglb paths lib tries) lib.handle.isSome tries
      (answersFor loader (candidates seeglb paths lib.filename) lib.handle.isSome tries) := by
  cases paths with
  | nil => exact ⟨rfl, rfl⟩
  | cons path paths =>
    by_cases hlib : libraryPrefix.isPrefixOf lib.filename = true
    · rw [candidates, if_pos hlib]
      exact follows_searchPaths_prefixed loader seeglb hlib (path :: paths) tries
    rw [candidates, if_neg hlib, searchPaths]
    obtain ⟨hok, hheld, hname, hpath⟩ := loadFile_spec loader (lib.setPath path) seeglb tries
    cases hholds : (loader.dlopen tries (path ++ lib.filename) seeglb).holds lib.handle.isSome with
    | true =>
      rw [load_of_first (hok.trans hholds), if_pos rfl]
      exact follows_found hholds (hheld.trans hholds) rfl
    | false =>
      apply follows_cons hholds
      rw [load_of_not_prefixed (hok.trans hholds) (hname.symm ▸ hlib)]
      -- the second try, with no library held
      generalize ((lib.setPath path).loadFile loader seeglb tries).2 = first at *
      obtain ⟨errorstr, filename, path', isloaded, handle⟩ := first
      obtain rfl : filename = lib.filename := hname
      obtain rfl : path' = path := hpath
      have hnone : handle.isSome = false := hheld.trans hholds
      obtain ⟨hok', hheld', hname', -⟩ := loadFile_spec loader
        ⟨errorstr, libraryPrefix ++ lib.filename, path', isloaded, handle⟩ false (tries + 1)
      rw [hnone] at hok' hheld'
      dsimp only
      rw [hok']
      cases hholds' : (loader.dlopen (tries + 1) (path' ++ (libraryPrefix ++ lib.filename))
          false).holds false with
      | true =>
        rw [if_pos rfl]
        exact follows_found hholds' (hheld'.trans hholds') rfl
      | false =>
        rw [if_neg Bool.false_ne_true]
        apply follows_cons hholds'
        have hprefixed := (congrArg libraryPrefix.isPrefixOf hname').trans
          (isPrefixOf_append_self lib.filename)
        have hnext := follows_searchPaths_prefixed loader seeglb hprefixed paths (tries + 2)
        rw [hname', hheld'.trans hholds'] at hnext
        exact hnext

theorem handle_searchNames (paths names : List (List Byte)) (lib : Library) (tries : ℕ) :
    (searchNames loader seeglb paths names lib tries).handle.isSome =
      (answers loader seeglb paths names lib.handle.isSome tries).foldl Attempt.holds
        lib.handle.isSome := by
  induction names generalizing lib tries with
  | nil => rfl
  | cons name names ih =>
    obtain ⟨hheld, htries⟩ := follows_searchPaths loader seeglb paths (lib.setFilename name) tries
    rw [filename_setFilename, handle_setFilename] at hheld htries
    rw [searchNames, ih, answers, List.foldl_append, hheld, htries]

end Answers

section Flag

variable {lib : Library} {loader : Loader} {seeglb : Bool}

/-- A library with a handle is flagged as loaded. The converse fails: a file refused later
takes the handle away and leaves the flag. -/
def Flagged (lib : Library) : Prop := lib.handle.isSome = true → lib.isloaded = true

theorem flagged_new : new.Flagged := fun h => absurd h Bool.false_ne_true

theorem flagged_setFilename (h : lib.Flagged) (name : List Byte) :
    (lib.setFilename name).Flagged := by
  rw [setFilename]
  split
  · exact h
  · split
    · exact h
    · split
      · exact h
      · exact h

theorem flagged_loadFile (loader : Loader) (lib : Library) (seeglb : Bool) (tries : ℕ) :
    (lib.loadFile loader seeglb tries).2.Flagged := by
  rw [loadFile]
  split
  · exact fun _ => rfl
  · rename_i hnone
    exact fun h => absurd h hnone

theorem flagged_load (loader : Loader) (lib : Library) (tryPrefix seeglb : Bool) (tries : ℕ) :
    (lib.load loader tryPrefix seeglb tries).2.1.Flagged := by
  have hfirst := flagged_loadFile loader lib seeglb tries
  rw [load]
  split
  · exact hfirst
  · split
    · exact hfirst
    · exact flagged_loadFile loader _ false (tries + 1)

theorem flagged_searchPaths (h : lib.Flagged) (paths : List (List Byte)) (tries : ℕ) :
    (searchPaths loader seeglb paths lib tries).1.Flagged := by
  induction paths generalizing lib tries with
  | nil => exact h
  | cons path paths ih =>
    have hload := flagged_load loader (lib.setPath path) true seeglb tries
    rw [searchPaths]
    split
    · exact hload
    · exact ih hload _

theorem flagged_searchNames (h : lib.Flagged) (paths names : List (List Byte)) (tries : ℕ) :
    (searchNames loader seeglb paths names lib tries).Flagged := by
  induction names generalizing lib tries with
  | nil => exact h
  | cons name names ih => exact ih (flagged_searchPaths (flagged_setFilename h name) paths tries) _

@[simp] theorem handle_resolve (symbol : List Byte) :
    (lib.resolve loader symbol).handle = lib.handle := by
  rw [resolve]
  split
  · rfl
  · split <;> rfl

@[simp] theorem isloaded_resolve (symbol : List Byte) :
    (lib.resolve loader symbol).isloaded = lib.isloaded := by
  rw [resolve]
  split
  · rfl
  · split <;> rfl

end Flag

end Library

/-- `librarymap` has no entry, a null entry or a library for each name. -/
structure LibraryManager where
  searchpaths : List (List Byte)
  namesmap : List Byte → List (List Byte)
  librarymap : List Byte → Option (Option Library)

namespace LibraryManager

def new (searchpaths : List (List Byte)) (namesmap : List Byte → List (List Byte)) :
    LibraryManager := ⟨searchpaths, namesmap, fun _ => none⟩

def setEntry (s : LibraryManager) (name : List Byte) (entry : Option (Option Library)) :
    LibraryManager :=
  { s with librarymap := fun other => if other = name then entry else s.librarymap other }

def names (s : LibraryManager) (name : List Byte) : List (List Byte) :=
  let names := s.namesmap name
  if names.length = 0 then [name] else names

def find (s : LibraryManager) (name : List Byte) (seeglb : Bool) (loader : Loader) : Library :=
  Library.searchNames loader seeglb s.searchpaths (s.names name) Library.new 0

/-- The symbol of a plugin's entry function, `plainopen_` and the name without its extension. -/
def mainfunc (name : List Byte) : List Byte :=
  let stem :=
    match name.idxOf? 0x2E with
    | none => name
    | some pos => name.take pos ++ name.drop (pos + (name.length - 1))
  [0x70, 0x6C, 0x61, 0x69, 0x6E, 0x6F, 0x70, 0x65, 0x6E, 0x5F] ++ stem

def load (s : LibraryManager) (name : List Byte) (seeglb : Bool) (loader : Loader) :
    LibraryManager × Bool :=
  match s.librarymap name with
  | some (some _) => (s, true)
  | some none | none =>
      let s := s.setEntry name (some none)
      let library := s.find name seeglb loader
      if !library.isloaded then (s, false)
      else (s.setEntry name (some (some (library.resolve loader (mainfunc name)))), true)

def unload (s : LibraryManager) (name : List Byte) (closed : Option (List Byte)) :
    LibraryManager × Option Bool :=
  match s.librarymap name with
  | none => (s, some true)
  | some none => (s, none)
  | some (some library) =>
      let r := library.unload closed
      if !r.1 then (s.setEntry name (some (some r.2)), some false)
      else (s.setEntry name none, some true)

inductive Op where
  | load (name : List Byte) (seeglb : Bool) (loader : Loader)
  | unload (name : List Byte) (closed : Option (List Byte))

def step (s : LibraryManager) : Op → LibraryManager × Option Bool
  | .load name seeglb loader => ((s.load name seeglb loader).1, some (s.load name seeglb loader).2)
  | .unload name closed => s.unload name closed

def machine : Machine LibraryManager Op (Option Bool) := ⟨step⟩

def lastLoaded (s : LibraryManager) (names : Finset (List Byte)) : Op → Finset (List Byte)
  | .load name seeglb loader =>
      if (s.load name seeglb loader).2 then insert name names else names
  | .unload name closed =>
      if (s.unload name closed).2 = some true then names.erase name else names

def Loaded (lib : Library) : Prop := lib.isloaded = true ∧ lib.handle.isSome = true

/-- The map has an entry for exactly the given names, and each entry is a loaded library. -/
structure Tracks (s : LibraryManager) (names : Finset (List Byte)) : Prop where
  entry_iff : ∀ name, (s.librarymap name).isSome = true ↔ name ∈ names
  loaded : ∀ name entry, s.librarymap name = some entry → ∃ lib, entry = some lib ∧ Loaded lib

/-- For a name that has no entry the loader opens a file, and finds none of the files it is
asked for behind the last one it opens. -/
def Finds (s : LibraryManager) : Op → Prop
  | .load name seeglb loader => s.librarymap name = none →
      Attempt.EndOpened (Library.answers loader seeglb s.searchpaths (s.names name) false 0)
  | .unload _ _ => True

section Steps

variable {s : LibraryManager} {names : Finset (List Byte)}

theorem tracks_new (searchpaths : List (List Byte)) (namesmap : List Byte → List (List Byte)) :
    Tracks (new searchpaths namesmap) ∅ :=
  ⟨fun name => by simp [new], fun _ _ h => nomatch h⟩

@[simp] theorem librarymap_setEntry (name : List Byte) (entry : Option (Option Library)) :
    (s.setEntry name entry).librarymap name = entry := if_pos rfl

@[simp] theorem setEntry_setEntry (name : List Byte) (entry entry' : Option (Option Library)) :
    (s.setEntry name entry).setEntry name entry' = s.setEntry name entry' := by
  simp only [setEntry, mk.injEq, true_and]
  ext1 other
  split <;> rfl

theorem Tracks.setEntry_insert (h : Tracks s names) (name : List Byte) {lib : Library}
    (hlib : Loaded lib) : Tracks (s.setEntry name (some (some lib))) (insert name names) where
  entry_iff other := by
    rw [setEntry, Finset.mem_insert, ← h.entry_iff]
    dsimp only
    split <;> simp [*]
  loaded other entry hentry := by
    rw [setEntry] at hentry
    dsimp only at hentry
    split at hentry
    · exact ⟨lib, (Option.some.inj hentry).symm, hlib⟩
    · exact h.loaded other entry hentry

theorem Tracks.setEntry_erase (h : Tracks s names) (name : List Byte) :
    Tracks (s.setEntry name none) (names.erase name) where
  entry_iff other := by
    rw [setEntry, Finset.mem_erase, ← h.entry_iff]
    dsimp only
    split <;> simp [*]
  loaded other entry hentry := by
    rw [setEntry] at hentry
    dsimp only at hentry
    split at hentry
    · exact nomatch hentry
    · exact h.loaded other entry hentry

theorem Tracks.cases (h : Tracks s names) (name : List Byte) :
    (s.librarymap name = none ∧ name ∉ names) ∨
      ∃ lib, s.librarymap name = some (some lib) ∧ Loaded lib ∧ name ∈ names := by
  have hentry := h.entry_iff name
  rcases hmap : s.librarymap name with _ | entry
  · left
    exact ⟨rfl, fun hmem => by simp [hmap] at hentry; exact hentry hmem⟩
  · right
    obtain ⟨lib, rfl, hlib⟩ := h.loaded name entry hmap
    exact ⟨lib, rfl, hlib, hentry.mp (by rw [hmap]; rfl)⟩

theorem load_missing {name : List Byte} (hmap : s.librarymap name = none) (seeglb : Bool)
    (loader : Loader) :
    s.load name seeglb loader =
      if !(s.find name seeglb loader).isloaded then (s.setEntry name (some none), false)
      else (s.setEntry name (some (some ((s.find name seeglb loader).resolve loader
        (mainfunc name)))), true) := by
  rw [load, hmap]
  dsimp only
  rw [setEntry_setEntry]
  rfl

theorem flagged_find (name : List Byte) (seeglb : Bool) (loader : Loader) :
    (s.find name seeglb loader).Flagged :=
  Library.flagged_searchNames Library.flagged_new _ _ _

theorem handle_find_iff (name : List Byte) (seeglb : Bool) (loader : Loader) :
    (s.find name seeglb loader).handle.isSome = true ↔
      Attempt.EndOpened (Library.answers loader seeglb s.searchpaths (s.names name) false 0) := by
  rw [← Attempt.foldl_holds_iff]
  exact Eq.congr_left (Library.handle_searchNames s.searchpaths (s.names name) Library.new 0)

/-- A load keeps the map right exactly when it finds the library, if it has to look for it. -/
theorem load_tracks_iff (h : Tracks s names) (name : List Byte) (seeglb : Bool)
    (loader : Loader) :
    Tracks (s.load name seeglb loader).1 (lastLoaded s names (.load name seeglb loader)) ↔
      s.Finds (.load name seeglb loader) := by
  rcases h.cases name with ⟨hmap, hmem⟩ | ⟨lib, hmap, hlib, hmem⟩
  · rw [Finds, imp_iff_right hmap, ← handle_find_iff, lastLoaded, load_missing hmap]
    cases hloaded : (s.find name seeglb loader).isloaded with
    | true =>
      rw [Bool.not_true, if_neg Bool.false_ne_true, if_pos rfl]
      constructor
      · intro h'
        obtain ⟨lib, hlib, -, hhandle⟩ := h'.loaded name _ (librarymap_setEntry _ _)
        rwa [← Option.some.inj hlib, Library.handle_resolve] at hhandle
      · intro hhandle
        apply h.setEntry_insert name
        exact ⟨by rw [Library.isloaded_resolve, hloaded], by rw [Library.handle_resolve, hhandle]⟩
    | false =>
      rw [Bool.not_false, if_pos rfl, if_neg Bool.false_ne_true]
      constructor
      · intro h'
        obtain ⟨lib, hlib, -⟩ := h'.loaded name _ (librarymap_setEntry _ _)
        exact nomatch hlib
      · intro hhandle
        have hflag := flagged_find name seeglb loader hhandle
        rw [hloaded] at hflag
        exact absurd hflag Bool.false_ne_true
  · have hload : s.load name seeglb loader = (s, true) := by rw [load, hmap]
    rw [lastLoaded, hload, if_pos rfl, Finset.insert_eq_self.mpr hmem, Finds, hmap]
    exact iff_of_true h fun hnone => nomatch hnone

theorem unload_tracks (h : Tracks s names) (name : List Byte) (closed : Option (List Byte)) :
    Tracks (s.unload name closed).1 (lastLoaded s names (.unload name closed)) := by
  rw [lastLoaded]
  rcases h.cases name with ⟨hmap, hmem⟩ | ⟨lib, hmap, hlib, hmem⟩
  · have hunload : s.unload name closed = (s, some true) := by rw [unload, hmap]
    rw [hunload, if_pos rfl, Finset.erase_eq_of_notMem hmem]
    exact h
  · cases closed with
    | none =>
      have hunload : s.unload name none = (s.setEntry name none, some true) := by
        simp [unload, hmap, Library.unload, hlib.2]
      rw [hunload, if_pos rfl]
      exact h.setEntry_erase name
    | some error =>
      have hunload : s.unload name (some error) =
          (s.setEntry name (some (some { lib with errorstr := error })), some false) := by
        simp [unload, hmap, Library.unload, hlib.2]
      rw [hunload, if_neg (by simp)]
      have hlib' : Loaded { lib with errorstr := error } := hlib
      have hkept := h.setEntry_insert name hlib'
      rwa [Finset.insert_eq_self.mpr hmem] at hkept

theorem Tracks.unload_ne_none (h : Tracks s names) (name : List Byte)
    (closed : Option (List Byte)) : (s.unload name closed).2 ≠ none := by
  rcases h.cases name with ⟨hmap, -⟩ | ⟨lib, hmap, -, -⟩
  · simp [unload, hmap]
  · rw [unload, hmap]
    dsimp only
    split <;> simp

theorem step_tracks_iff (h : Tracks s names) (op : Op) :
    Tracks (machine.step s op).1 (lastLoaded s names op) ↔ s.Finds op := by
  cases op with
  | load name seeglb loader => exact load_tracks_iff h name seeglb loader
  | unload name closed => exact iff_of_true (unload_tracks h name closed) trivial

end Steps

/-- In every state of a run the map has an entry for exactly the names that were last loaded,
each a loaded library, and `unload` may be called for any name, if and only if each load of a
name that has no entry opens a file and is refused none behind the last one opened. -/
theorem libraryMap_tracks_iff (searchpaths : List (List Byte))
    (namesmap : List Byte → List (List Byte)) (ops : List Op) :
    (∀ n, let r := ((machine.noting lastLoaded).run (new searchpaths namesmap, ∅) (ops.take n)).1
      Tracks r.1 r.2 ∧ ∀ name closed, (r.1.unload name closed).2 ≠ none) ↔
      machine.Along Finds (new searchpaths namesmap) ops := by
  rw [← Machine.along_noting machine lastLoaded (s := (new searchpaths namesmap, ∅)),
    ← Machine.run_always_iff _ (P := fun r : LibraryManager × Finset (List Byte) => Tracks r.1 r.2)
      (fun r op h => step_tracks_iff h op) (tracks_new searchpaths namesmap)]
  exact forall_congr' fun n => and_iff_left_of_imp fun h => h.unload_ne_none

/-- A plugin that is found nowhere: its load fails and leaves a null entry, which `unload`
follows. -/
theorem libraryMap_keeps_failed :
    let loader : Loader := ⟨fun _ _ _ => .missing, fun _ => none⟩
    let s := new [[0x2E, 0x2F]] fun _ => []
    (machine.run s [.load [0x61] false loader]).1.librarymap [0x61] = some none ∧
      (machine.run s [.load [0x61] false loader, .unload [0x61] none]).2 =
        [some false, none] := by decide

end LibraryManager

end Plain
