import Lcthw.StringAlgos
import Lcthw.Bstrlib.Trimming

/-!
# Lcthw — installing packages with `devpkg` (`commands.c`)

The commands run shell scripts, ask the file system, the APR and the package database, and stop at
the first answer they do not like. All these answers are up to a `World`, which may make them depend
on everything that happened before. The `check` macro negates its argument without parentheses:
`check(rc != -1, ..)` is `if((!rc != -1))`, and that is always so.

* **`checkEq`**, **`checkNe`**: what `check` makes of a comparison.
* **`commandInstall_eq`**: an installation cleans up, asks the database, cleans up again and fails.
* **`allOrNothing_iff`**: when that is what an installation is to do.
-/

namespace Lcthw.Devpkg

open StringAlgos

/-! ## The world

Everything that a command cannot decide by itself is a question to the world, and the answer is logged.
The world may look at the log before it answers, so it can be a shell, a file system or a database that
the earlier calls have changed. -/

/-- The scripts of `shell.c`. -/
inductive Shell where
  | CLEANUP_SH
  | GIT_SH
  | TAR_SH
  | CURL_SH
  | CONFIGURE_SH
  | MAKE_SH
  | INSTALL_SH
  deriving DecidableEq

/-- A C string; a NULL argument is `none` where the source passes one on. -/
abbrev CString := List UInt8

/-- The names and values a script is called with. -/
abbrev Args := List (CString × Option CString)

/-- What the source reads of an `apr_uri_t`. The path of a url without one is NULL. -/
structure Uri where
  path : Option CString
  scheme : Option CString

/-- A call that asks the world, with its answer. -/
inductive Event where
  | shellExec (template : Shell) (args : Args) (rc : ℤ)
  | access (path : CString) (rc : ℤ)
  | dirMakeRecursive (dir : CString) (rv : ℤ)
  | uriParse (url : CString) (rv : ℤ)
  | fopen (path : CString) (opened : Bool)
  | find (url : CString) (rc : ℤ)
  | update (url : CString) (rc : ℤ)
  deriving DecidableEq

/-- The answers, which may depend on all earlier calls. A file that is opened is read line by line. -/
structure World where
  shellExec : List Event → Shell → Args → ℤ
  access : List Event → CString → ℤ
  dirMakeRecursive : List Event → CString → ℤ
  uriParse : List Event → CString → ℤ × Uri
  fnmatch : CString → CString → ℤ
  fopen : List Event → CString → Option (List CString)
  find : List Event → CString → ℤ
  update : List Event → CString → ℤ

/-- `goto error`, a crash, or a chain of dependencies that is longer than the model follows. -/
inductive Stop where
  | error
  | fault (f : Fault)
  | outOfFuel
  deriving DecidableEq

/-- A program that logs its calls: it takes the calls made before, and returns all of them. -/
def Prog (α : Type) : Type :=
  List Event → Except Stop α × List Event

namespace Prog

variable {α β : Type}

instance : Monad Prog where
  pure a := fun log => (.ok a, log)
  bind p f := fun log =>
    match p log with
    | (.ok a, log) => f a log
    | (.error e, log) => (.error e, log)

def stop (e : Stop) : Prog α :=
  fun log => (.error e, log)

/-- What a pointer points to. -/
def deref (p : Option α) : Prog α :=
  match p with
  | some a => pure a
  | none => stop (.fault .nullDeref)

/-- Ask the world, and log the answer. -/
def ask (answer : List Event → α) (event : α → Event) : Prog α :=
  fun log => (.ok (answer log), log ++ [event (answer log)])

/-- `body`, and behind it what stands at its label `error`. -/
def onError (body error : Prog ℤ) : Prog ℤ :=
  fun log =>
    match body log with
    | (.error .error, log) => error log
    | r => r

variable {p : Prog α} {f : α → Prog β} {log log' : List Event}

theorem bind_ok {a : α} (h : p log = (.ok a, log')) : (p >>= f) log = f a log' := by
  show (match p log with
    | (.ok a, log) => f a log
    | (.error e, log) => (.error e, log)) = _
  rw [h]

theorem bind_error {e : Stop} (h : p log = (.error e, log')) : (p >>= f) log = (.error e, log') := by
  show (match p log with
    | (.ok a, log) => f a log
    | (.error e, log) => (.error e, log)) = _
  rw [h]

theorem onError_error {body error : Prog ℤ} (h : body log = (.error .error, log')) :
    onError body error log = error log' := by
  unfold onError
  rw [h]

end Prog

open Prog

/-! ## The macro `check`

The macro puts its argument behind a `!` without parentheses, so the `!` belongs to the first operand of
a comparison. Against 0 that comes to the same; against another number it does not. -/

/-- `!x` -/
def lnot (x : ℤ) : ℤ :=
  if x = 0 then 1 else 0

/-- `check(x == y, ..)`, which is `if((!x == y)) goto error`. -/
def checkEq (x y : ℤ) : Prog Unit :=
  if lnot x = y then stop .error else pure ()

/-- `check(x != y, ..)`, which is `if((!x != y)) goto error`. -/
def checkNe (x y : ℤ) : Prog Unit :=
  if lnot x ≠ y then stop .error else pure ()

/-! ## The commands

The commands are programs in the order of the source, with `goto error` as an exception that is caught
at the label. They call each other: an installation may fetch a list of dependencies, each of which is
installed. -/

def DEPENDS_PATH : CString := bytes "/tmp/DEPENDS"
def TAR_GZ_SRC : CString := bytes "/tmp/pkg-src.tar.gz"
def TAR_BZ2_SRC : CString := bytes "/tmp/pkg-src.tar.bzz"
def BUILD_DIR : CString := bytes "/tmp/pkg-build"
def GIT_PAT : CString := bytes "*.git"
def DEPEND_PAT : CString := bytes "*DEPENDS"
def TAR_GZ_PAT : CString := bytes "*.tar.gz"
def TAR_BZ2_PAT : CString := bytes "*.tar.bz2"
def CONFIG_SCRIPT : CString := bytes "/tmp/pkg-build/configure"

def APR_SUCCESS : ℤ := 0

def btrimws (line : CString) : CString :=
  trim Bstrlib.wspace line

section Commands

variable (w : World)

def shellExec (template : Shell) (args : Args) : Prog ℤ :=
  ask (fun log => w.shellExec log template args) (.shellExec template args)

def access (path : CString) : Prog ℤ :=
  ask (fun log => w.access log path) (.access path)

def dirMakeRecursive (dir : CString) : Prog ℤ :=
  ask (fun log => w.dirMakeRecursive log dir) (.dirMakeRecursive dir)

def uriParse (url : CString) : Prog (ℤ × Uri) :=
  ask (fun log => w.uriParse log url) fun r => .uriParse url r.1

def fopen (path : CString) : Prog (Option (List CString)) :=
  ask (fun log => w.fopen log path) fun lines => .fopen path lines.isSome

def dbFind (url : CString) : Prog ℤ :=
  ask (fun log => w.find log url) (.find url)

def dbUpdate (url : CString) : Prog ℤ :=
  ask (fun log => w.update log url) (.update url)

/-- `Command_depends`, given the `Command_install` that it calls. -/
def commandDepends (install : CString → Prog ℤ) (path : CString) : Prog ℤ :=
  onError
    (do
      let lines ← fopen w path
      checkNe (if lines.isSome then 1 else 0) 0
      (lines.getD []).forM fun line => do
        let rc ← install (btrimws line)
        checkEq rc 0
      pure 0)
    (pure (-1))

/-- `Command_fetch`, from the first pattern on: it returns 1 when the package still has to be built. -/
def fetchPath (install : CString → Prog ℤ) (url : CString) (fetch_only : ℤ) (path : CString)
    (scheme : Option CString) : Prog ℤ :=
  if w.fnmatch GIT_PAT path = APR_SUCCESS then do
    let rc ← shellExec w .GIT_SH [(bytes "URL", url)]
    checkEq rc 0
    pure 1
  else if w.fnmatch DEPEND_PAT path = APR_SUCCESS then do
    -- `check(!fetch_only, ..)` is `if((!!fetch_only))`
    if lnot (lnot fetch_only) ≠ 0 then stop .error
    else do
      let depends_file ←
        if scheme.isSome then do
          let rc ← shellExec w .CURL_SH
            [(bytes "URL", url), (bytes "TARGET", DEPENDS_PATH)]
          checkEq rc 0
          pure DEPENDS_PATH
        else pure path
      let rv ← commandDepends w install depends_file
      checkEq rv 0
      pure 0
  else if w.fnmatch TAR_GZ_PAT path = APR_SUCCESS then do
    if scheme.isSome then do
      let rc ← shellExec w .CURL_SH [(bytes "URL", url), (bytes "TARGET", TAR_GZ_SRC)]
      checkEq rc 0
    let rv ← dirMakeRecursive w BUILD_DIR
    checkEq rv APR_SUCCESS
    let _ ← shellExec w .TAR_SH [(bytes "FILE", TAR_GZ_SRC)]
    -- the result of the script is in `rc`, and the source looks at `rv` once more
    checkEq rv APR_SUCCESS
    pure 1
  else if w.fnmatch TAR_BZ2_PAT path = APR_SUCCESS then do
    if scheme.isSome then do
      let rc ← shellExec w .CURL_SH [(bytes "URL", url), (bytes "TARGET", TAR_BZ2_SRC)]
      checkEq rc 0
    let rc ← dirMakeRecursive w BUILD_DIR
    checkEq rc 0
    let rc ← shellExec w .TAR_SH [(bytes "FILE", TAR_BZ2_SRC)]
    checkEq rc 0
    pure 1
  else stop .error

/-- `Command_fetch` -/
def commandFetch (install : CString → Prog ℤ) (url : CString) (fetch_only : ℤ) : Prog ℤ :=
  onError
    (do
      let (rv, info) ← uriParse w url
      checkEq rv APR_SUCCESS
      -- `apr_fnmatch` reads the path, which may be NULL
      let path ← deref info.path
      fetchPath w install url fetch_only path info.scheme)
    (pure (-1))

/-- `Command_build` -/
def commandBuild (url : CString) (configure_opts make_opts install_opts : Option CString) :
    Prog ℤ :=
  onError
    (do
      checkEq (← access w BUILD_DIR) 0
      if (← access w CONFIG_SCRIPT) = 0 then do
        let rc ← shellExec w .CONFIGURE_SH [(bytes "OPTS", configure_opts)]
        checkEq rc 0
      let rc ← shellExec w .MAKE_SH [(bytes "OPTS", make_opts)]
      checkEq rc 0
      let rc ← shellExec w .INSTALL_SH
        [(bytes "TARGET", some (install_opts.getD (bytes "install")))]
      checkEq rc 0
      let rc ← shellExec w .CLEANUP_SH []
      checkEq rc 0
      let rc ← dbUpdate w url
      checkEq rc 0
      pure 0)
    (pure (-1))

/-- `Command_install`; the fuel bounds the depth of dependencies on dependencies. -/
def commandInstall : ℕ → CString → Option CString → Option CString → Option CString → Prog ℤ
  | 0, _, _, _, _ => stop .outOfFuel
  | fuel + 1, url, configure_opts, make_opts, install_opts =>
      onError
        (do
          checkEq (← shellExec w .CLEANUP_SH []) 0
          let rc ← dbFind w url
          checkNe rc (-1)
          if rc = 1 then pure 0
          else do
            let rc ← commandFetch w (fun line => commandInstall fuel line none none none) url 0
            if rc = 1 then do
              let rc ← commandBuild w url configure_opts make_opts install_opts
              checkEq rc 0
            else if rc = 0 then pure ()
            else stop .error
            let _ ← shellExec w .CLEANUP_SH []
            pure 0)
        (do
          let _ ← shellExec w .CLEANUP_SH []
          pure (-1))

end Commands

/-! ## What an installation is to do

All or nothing: either every step succeeds and the package is recorded, or a step fails and the database
stays as it was. The steps and their results are read off the log. -/

/-- A step that reports failure. -/
def Event.Failed : Event → Prop
  | shellExec _ _ rc => rc ≠ 0
  | access path rc => path = BUILD_DIR ∧ rc ≠ 0
  | dirMakeRecursive _ rv => rv ≠ APR_SUCCESS
  | uriParse _ rv => rv ≠ APR_SUCCESS
  | fopen _ opened => opened = false
  | find _ _ => False
  | update _ rc => rc ≠ 0

/-- All-or-nothing, for the result and the calls of an installation. -/
structure AllOrNothing (url : CString) (rc : ℤ) (log : List Event) : Prop where
  all : .find url 0 ∈ log → (∀ e ∈ log, ¬ e.Failed) → rc = 0 ∧ ∃ r, .update url r ∈ log
  nothing : (∀ r, .find url r ∈ log → r = 0) →
    (∃ before e after, log = before ++ e :: after ∧ e.Failed ∧ ∀ r, .update url r ∉ before) →
      rc = -1 ∧ ∀ r, .update url r ∉ log
  installed : .find url 1 ∈ log → rc = 0

/-! ## What it does

The check of the answer of the database never passes. So a run consists of two cleanups with the
question in between, or of the cleanups alone, and this can be compared with what it is to do. -/

section Install

variable (w : World) (url : CString)

/-- The answer to the first cleanup. -/
def firstCleanup : ℤ :=
  w.shellExec [] .CLEANUP_SH []

/-- The calls up to the database. -/
def asked : List Event :=
  [.shellExec .CLEANUP_SH [] (firstCleanup w)]

/-- The database's answer. -/
def found : ℤ :=
  w.find (asked w) url

/-- The answer to the cleanup behind the label `error`. -/
def lastCleanup : ℤ :=
  w.shellExec (asked w ++ [.find url (found w url)]) .CLEANUP_SH []

theorem lnot_ne_neg_one (x : ℤ) : lnot x ≠ -1 := by
  unfold lnot
  split <;> decide

/-- `check(x == 0, ..)` does what it says. -/
theorem checkEq_zero (x : ℤ) (log : List Event) :
    checkEq x 0 log = (if x = 0 then .ok () else .error .error, log) := by
  unfold checkEq lnot
  by_cases hx : x = 0
  · rw [if_pos hx, if_pos hx]
    rfl
  · rw [if_neg hx, if_neg hx]
    rfl

/-- `check(x != -1, ..)` never succeeds. -/
theorem checkNe_neg_one (x : ℤ) (log : List Event) :
    checkNe x (-1) log = (.error .error, log) := by
  unfold checkNe
  rw [if_pos (lnot_ne_neg_one x)]
  rfl

/-- The calls of an installation. -/
def installLog : List Event :=
  if firstCleanup w = 0 then
    asked w ++ [.find url (found w url)] ++ [.shellExec .CLEANUP_SH [] (lastCleanup w url)]
  else asked w ++ [.shellExec .CLEANUP_SH [] (w.shellExec (asked w) .CLEANUP_SH [])]

/-- **An installation fails**, whatever the world answers, and without fetching anything. -/
theorem commandInstall_eq (fuel : ℕ) (configure_opts make_opts install_opts : Option CString) :
    commandInstall w (fuel + 1) url configure_opts make_opts install_opts [] =
      (.ok (-1), installLog w url) := by
  have hfirst : shellExec w .CLEANUP_SH [] [] = (.ok (firstCleanup w), asked w) := rfl
  unfold commandInstall installLog
  by_cases hclean : firstCleanup w = 0
  · rw [if_pos hclean]
    have hcheck := checkEq_zero (firstCleanup w) (asked w)
    rw [if_pos hclean] at hcheck
    have hfind : dbFind w url (asked w) =
      (.ok (found w url), asked w ++ [.find url (found w url)]) := rfl
    rw [onError_error]
    · rfl
    · rw [bind_ok hfirst, bind_ok hcheck, bind_ok hfind]
      exact bind_error (checkNe_neg_one _ _)
  · rw [if_neg hclean]
    have hcheck := checkEq_zero (firstCleanup w) (asked w)
    rw [if_neg hclean] at hcheck
    rw [onError_error]
    · rfl
    · rw [bind_ok hfirst]
      exact bind_error hcheck

/-- **When that is all-or-nothing.** The first cleanup fails; or the database answers neither that
the package is installed nor that it is not; or it is not, and the last cleanup fails. -/
theorem allOrNothing_iff (fuel : ℕ) (configure_opts make_opts install_opts : Option CString) :
    ∃ rc log, commandInstall w (fuel + 1) url configure_opts make_opts install_opts [] =
        (.ok rc, log) ∧
      (AllOrNothing url rc log ↔
        firstCleanup w ≠ 0 ∨ found w url ≠ 0 ∧ found w url ≠ 1 ∨
          found w url = 0 ∧ lastCleanup w url ≠ 0) := by
  refine ⟨_, _, commandInstall_eq w url fuel configure_opts make_opts install_opts, ?_⟩
  have hupdate : ∀ r, Event.update url r ∉ installLog w url := by
    intro r
    unfold installLog asked
    split <;> simp
  by_cases hclean : firstCleanup w = 0
  · -- nothing is fetched or built, even when the url is not installed
    have hlog : installLog w url = [.shellExec .CLEANUP_SH [] 0, .find url (found w url),
        .shellExec .CLEANUP_SH [] (lastCleanup w url)] := by
      unfold installLog
      rw [if_pos hclean]
      unfold asked
      rw [hclean]
      rfl
    have hfind : ∀ r, Event.find url r ∈ installLog w url ↔ found w url = r := by
      intro r
      rw [hlog]
      simp [eq_comm]
    have hfailed : (∀ e ∈ installLog w url, ¬ e.Failed) ↔ lastCleanup w url = 0 := by
      rw [hlog]
      simp [Event.Failed]
    constructor
    · intro h
      have hone : found w url ≠ 1 := fun h1 =>
        absurd (h.installed ((hfind 1).mpr h1)) (by decide)
      by_cases hzero : found w url = 0
      · refine Or.inr (Or.inr ⟨hzero, fun hlast => ?_⟩)
        exact absurd (h.all ((hfind 0).mpr hzero) (hfailed.mpr hlast)).1 (by decide)
      · exact Or.inr (Or.inl ⟨hzero, hone⟩)
    · intro hwhen
      refine ⟨fun hzero hall => ?_, fun _ _ => ⟨rfl, hupdate⟩, fun hone => ?_⟩
      · have hzero := (hfind 0).mp hzero
        have hlast := hfailed.mp hall
        omega
      · have hone := (hfind 1).mp hone
        omega
  · -- the first clean up failed, so that nothing else was asked for
    refine iff_of_true ⟨fun hfind => ?_, fun _ _ => ⟨rfl, hupdate⟩, fun hfind => ?_⟩
      (Or.inl hclean)
    · unfold installLog asked at hfind
      rw [if_neg hclean] at hfind
      simp at hfind
    · unfold installLog asked at hfind
      rw [if_neg hclean] at hfind
      simp at hfind

/-- A world in which every call succeeds and the package is not installed. -/
def smooth : World where
  shellExec _ _ _ := 0
  access _ _ := 0
  dirMakeRecursive _ _ := 0
  uriParse _ url := (0, ⟨some url, none⟩)
  fnmatch pat _ := if pat = GIT_PAT then 0 else 1
  fopen _ _ := some []
  find _ _ := 0
  update _ _ := 0

/-- Where nothing goes wrong, the installation of a git repository fails all the same. -/
theorem smooth_install_fails :
    ∃ rc log, commandInstall smooth 1 (bytes "x.git") none none none [] = (.ok rc, log) ∧
      rc = -1 ∧ .find (bytes "x.git") 0 ∈ log ∧ (∀ e ∈ log, ¬ e.Failed) ∧
      (∀ r, .update (bytes "x.git") r ∉ log) ∧ ¬ AllOrNothing (bytes "x.git") rc log := by
  refine ⟨-1, [.shellExec .CLEANUP_SH [] 0, .find (bytes "x.git") 0, .shellExec .CLEANUP_SH [] 0],
    rfl, rfl, by simp, by simp [Event.Failed], by simp, fun h => ?_⟩
  exact absurd (h.all (by simp) (by simp [Event.Failed])).1 (by decide)

end Install

end Lcthw.Devpkg
