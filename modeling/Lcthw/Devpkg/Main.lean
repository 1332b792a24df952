import Lcthw.Devpkg.Commands

/-!
# Lcthw — the command line of `devpkg` (`devpkg.c`) and the scripts it runs (`shell.c`)

`main` keeps what the options say and carries out the last request among them. A script is a template
whose placeholders `Shell_exec` replaces one after the other; it runs only when none is left.

* **`commandLine_eq`**: replaced one after the other, the placeholders are replaced all at once.
* **`Logs`**: a property of every call that a program makes, kept by all the ways to put programs
  together.
* **`main_scripts`**: every script that any run starts has all its placeholders replaced.
* **`main_records`**: a package is recorded in the database only at the end of a build that succeeded.
* **`main_exits`**: what `main` returns, which is not what the commands return.
-/

namespace Lcthw.Devpkg

open StringAlgos Prog

/-! ## Scripts

A template has its placeholders among its arguments. They are replaced in the order in which the caller
names them, each where it is found first; that this comes to replacing all of them at once needs a look
at each template, since a value could itself look like a placeholder. -/

/-- What `Shell_exec` reads of a `Shell`. The arguments end at the first NULL. -/
structure Template where
  dir : CString
  exe : CString
  args : List CString
  replace : ℤ

def Shell.template : Shell → Template
  | .CLEANUP_SH =>
    { exe := bytes "rm", dir := bytes "/tmp"
      args := [bytes "rm", bytes "-rf", bytes "/tmp/pkg-build", bytes "/tmp/pkg-src.tar.gz",
        bytes "/tmp/pkg-src.tar.bzz", bytes "/tmp/DEPENDS"]
      replace := 0 }
  | .GIT_SH =>
    { exe := bytes "git", dir := bytes "/tmp"
      args := [bytes "git", bytes "clone", bytes "URL", bytes "pkg-build"]
      replace := 1 }
  | .TAR_SH =>
    { exe := bytes "tar", dir := bytes "/tmp/pkg-build"
      args := [bytes "tar", bytes "-xzf", bytes "FILE", bytes "--strip-components", bytes "1"]
      replace := 1 }
  | .CURL_SH =>
    { exe := bytes "curl", dir := bytes "/tmp"
      args := [bytes "curl", bytes "-L", bytes "-o", bytes "TARGET", bytes "URL"]
      replace := 2 }
  | .CONFIGURE_SH =>
    { exe := bytes "./configure", dir := bytes "/tmp/pkg-build"
      args := [bytes "configure", bytes "OPTS"]
      replace := 1 }
  | .MAKE_SH =>
    { exe := bytes "make", dir := bytes "/tmp/pkg-build"
      args := [bytes "make", bytes "OPTS"]
      replace := 1 }
  | .INSTALL_SH =>
    { exe := bytes "sudo", dir := bytes "/tmp/pkg-build"
      args := [bytes "sudo", bytes "make", bytes "TARGET"]
      replace := 1 }

/-- The loop of `Shell_exec` for one key: the first argument that equals it is replaced. A NULL there
ends the arguments. -/
def Template.substitute (t : Template) (pair : CString × Option CString) : Template :=
  let i := t.args.idxOf pair.1
  if i < t.args.length then
    { t with
      args := match pair.2 with
        | some arg => t.args.set i arg
        | none => t.args.take i
      replace := t.replace - 1 }
  else t

/-- What `Shell_exec` runs, unless its check fails. -/
def commandLine (template : Shell) (args : Args) : Option Template :=
  let t := args.foldl Template.substitute template.template
  if t.replace = 0 then some t else none

/-- The placeholders of a script, in the order in which the commands name them. -/
def Shell.placeholders : Shell → List CString
  | .CLEANUP_SH => []
  | .GIT_SH => [bytes "URL"]
  | .TAR_SH => [bytes "FILE"]
  | .CURL_SH => [bytes "URL", bytes "TARGET"]
  | .CONFIGURE_SH => [bytes "OPTS"]
  | .MAKE_SH => [bytes "OPTS"]
  | .INSTALL_SH => [bytes "TARGET"]

/-- The arguments with every placeholder replaced at once, up to a NULL. -/
def instantiate (args : Args) (words : List CString) : List CString :=
  ((words.map fun word => (args.lookup word).getD (some word)).takeWhile Option.isSome).reduceOption

/-- **One after the other or all at once**: a value that looks like a placeholder itself is not
replaced. -/
theorem commandLine_eq {template : Shell} {args : Args}
    (h : args.map Prod.fst = template.placeholders) :
    commandLine template args = some { template.template with
      args := instantiate args template.template.args, replace := 0 } := by
  cases template with
  | CLEANUP_SH =>
    obtain rfl := List.map_eq_nil_iff.mp h
    rfl
  | CURL_SH =>
    obtain ⟨⟨k, url⟩, rest, rfl, hk, hrest⟩ := List.map_eq_cons_iff.mp h
    obtain ⟨⟨k', target⟩, rest', rfl, hk', hnil⟩ := List.map_eq_cons_iff.mp hrest
    obtain rfl := List.map_eq_nil_iff.mp hnil
    subst hk hk'
    cases url <;> cases target <;> rfl
  | _ =>
    obtain ⟨⟨k, value⟩, rest, rfl, hk, hnil⟩ := List.map_eq_cons_iff.mp h
    obtain rfl := List.map_eq_nil_iff.mp hnil
    subst hk
    cases value <;> rfl

/-! ## The command line

The loop over the options only fills variables, so the last request wins and a url may come from an
option that is not the last one. Behind it, one request is carried out. -/

/-- An option that `apr_getopt` delivers, with its argument. -/
inductive Opt where
  | I (url : CString)
  | L
  | c (config_opts : CString)
  | m (make_opts : CString)
  | i (install_opts : CString)
  | d (ignored : CString)
  | S
  | F (url : CString)
  | B (url : CString)

inductive CommandType where
  | NONE
  | INSTALL
  | LIST
  | FETCH
  | INIT
  | BUILD
  deriving DecidableEq

/-- The variables of `main` that the options set. -/
structure Settings where
  request : CommandType
  url : Option CString
  config_opts : Option CString
  make_opts : Option CString
  install_opts : Option CString

/-- The `switch` of the loop. There is no case for `-d`. -/
def Settings.read (s : Settings) : Opt → Settings
  | .I url => { s with request := .INSTALL, url := some url }
  | .L => { s with request := .LIST }
  | .c config_opts => { s with config_opts := some config_opts }
  | .m make_opts => { s with make_opts := some make_opts }
  | .i install_opts => { s with install_opts := some install_opts }
  | .d _ => s
  | .S => { s with request := .INIT }
  | .F url => { s with request := .FETCH, url := some url }
  | .B url => { s with request := .BUILD, url := some url }

/-- The loop over the options, up to the first that `apr_getopt` does not know. -/
def settings (opts : List Opt) : Settings :=
  opts.foldl Settings.read
    { request := .NONE, url := none, config_opts := none, make_opts := none, install_opts := none }

def DB_DIR : CString := bytes "/usr/local/.devpkg"
def DB_FILE : CString := bytes "/usr/local/.devpkg/db"

/-- `check(p, ..)`, for a pointer that is not NULL if `p` is true. -/
def checkPtr (p : Bool) : Prog Unit :=
  if p then pure () else stop .error

section Main

variable (w : World)

/-- `DB_init` -/
def dbInit : Prog ℤ :=
  onError
    (do
      let access_dir ← access w DB_DIR
      if access_dir = -1 then do
        let rc ← dirMakeRecursive w DB_DIR
        checkEq rc APR_SUCCESS
      let access_file ← access w DB_FILE
      if access_file = -1 then do
        let db ← fopen w DB_FILE
        checkPtr db.isSome
      pure 0)
    (pure (-1))

/-- `DB_list`, for a file that can be read once it is open. -/
def dbList : Prog ℤ :=
  onError
    (do
      let db ← fopen w DB_FILE
      checkPtr db.isSome
      pure 0)
    (pure (-1))

/-- `main`. What the commands return is not looked at, and there is no `break` behind the fetch. -/
def main (fuel : ℕ) (opts : List Opt) : Prog ℤ :=
  let s := settings opts
  let url := s.url.getD []
  let init : Prog ℤ := do
    let rv ← dbInit w
    checkEq rv 0
    pure 0
  onError
    (match s.request with
    | .INSTALL => do
      checkPtr s.url.isSome
      let _ ← commandInstall w fuel url s.config_opts s.make_opts s.install_opts
      pure 0
    | .LIST => do
      let _ ← dbList w
      pure 0
    | .BUILD => do
      checkNe (if s.url.isSome then 1 else 0) 0
      let _ ← commandBuild w url s.config_opts s.make_opts s.install_opts
      pure 0
    | .FETCH => do
      checkNe (if s.url.isSome then 1 else 0) 0
      let _ ← commandFetch w (fun line => commandInstall w fuel line none none none) url 1
      init
    | .INIT => init
    | .NONE => stop .error)
    (pure (-1))

/-- What `Command_build` does behind the configuration. -/
def makeInstall (url : CString) (make_opts install_opts : Option CString) : Prog ℤ := do
  let rc ← shellExec w .MAKE_SH [(bytes "OPTS", make_opts)]
  checkEq rc 0
  let rc ← shellExec w .INSTALL_SH [(bytes "TARGET", some (install_opts.getD (bytes "install")))]
  checkEq rc 0
  let rc ← shellExec w .CLEANUP_SH []
  checkEq rc 0
  let rc ← dbUpdate w url
  checkEq rc 0
  pure 0

end Main

/-! ## What a program logs

A property of all calls that a program makes is kept by composition, so it need not be followed through
the log. The rules are one for each way to put programs together, and then one for each command. -/

/-- Every call that the program makes has the property, and the program comes to an end. It reads a NULL
pointer only when `crash` holds. -/
structure Logs {α : Type} (P : Event → Prop) (crash : Prop) (p : Prog α) : Prop where
  calls : ∀ log, ∀ e ∈ (p log).2, e ∈ log ∨ P e
  ends : ∀ log e, (p log).1 = .error e → e = .error ∨ e = .fault .nullDeref ∧ crash

section Logs

variable {α β : Type} {P : Event → Prop} {crash : Prop} {p : Prog α} {f : α → Prog β}

theorem exists_run (p : Prog α) (log : List Event) : ∃ r log', p log = (r, log') := ⟨_, _, rfl⟩

theorem logs_pure (a : α) : Logs P crash (pure a : Prog α) := by
  refine ⟨fun _ _ he => Or.inl he, fun log e h => ?_⟩
  cases h

theorem logs_stop : Logs P crash (stop .error : Prog α) := by
  refine ⟨fun _ _ he => Or.inl he, fun log e h => ?_⟩
  cases h
  exact Or.inl rfl

theorem logs_deref {pointer : Option α} (h : pointer = none → crash) :
    Logs P crash (deref pointer) := by
  cases pointer with
  | some a => exact logs_pure a
  | none =>
    refine ⟨fun _ _ he => Or.inl he, fun log e hstop => ?_⟩
    cases hstop
    exact Or.inr ⟨rfl, h rfl⟩

theorem logs_ask {answer : List Event → α} {event : α → Event} (h : ∀ a, P (event a)) :
    Logs P crash (ask answer event) := by
  refine ⟨fun log e he => ?_, fun log e hend => ?_⟩
  · rcases List.mem_append.mp he with he | he
    · exact Or.inl he
    · rw [List.mem_singleton.mp he]
      exact Or.inr (h _)
  · cases hend

/-- One program after the other: the second one runs when the first has not failed. -/
theorem logs_bind (hp : Logs P crash p) (hf : ∀ a, Logs P crash (f a)) : Logs P crash (p >>= f) := by
  constructor
  · intro log e he
    have hfirst := hp.calls log
    obtain ⟨r, log', hrun⟩ := exists_run p log
    rw [hrun] at hfirst
    cases r with
    | error s =>
      rw [bind_error hrun] at he
      exact hfirst e he
    | ok a =>
      rw [bind_ok hrun] at he
      rcases (hf a).calls log' e he with he | he
      · exact hfirst e he
      · exact Or.inr he
  · intro log e h
    have hfirst := hp.ends log
    obtain ⟨r, log', hrun⟩ := exists_run p log
    rw [hrun] at hfirst
    cases r with
    | error s =>
      rw [bind_error hrun] at h
      obtain rfl : s = e := Except.error.inj h
      exact hfirst s rfl
    | ok a =>
      rw [bind_ok hrun] at h
      exact (hf a).ends log' e h

/-- A program with a way out for its failures. -/
theorem logs_onError {body error : Prog ℤ} (hbody : Logs P crash body) (herror : Logs P crash error) :
    Logs P crash (onError body error) := by
  constructor
  · intro log e he
    have hfirst := hbody.calls log
    obtain ⟨r, log', hrun⟩ := exists_run body log
    rw [hrun] at hfirst
    -- only a `goto error` goes on to the label
    unfold onError at he
    rw [hrun] at he
    rcases r with (_ | _ | _) | a
    · rcases herror.calls log' e he with he | he
      · exact hfirst e he
      · exact Or.inr he
    · exact hfirst e he
    · exact hfirst e he
    · exact hfirst e he
  · intro log e h
    have hfirst := hbody.ends log
    obtain ⟨r, log', hrun⟩ := exists_run body log
    rw [hrun] at hfirst
    unfold onError at h
    rw [hrun] at h
    rcases r with (_ | f | _) | a
    · exact herror.ends log' e h
    · exact hfirst e h
    · exact hfirst e h
    · cases h

theorem logs_forM {lines : List α} {body : α → Prog Unit} (h : ∀ line, Logs P crash (body line)) :
    Logs P crash (lines.forM body) := by
  induction lines with
  | nil => exact logs_pure ()
  | cons line lines ih => exact logs_bind (h line) fun _ => ih

theorem logs_checkEq (x y : ℤ) : Logs P crash (checkEq x y) := by
  unfold checkEq
  split
  · exact logs_stop
  · exact logs_pure ()

theorem logs_checkNe (x y : ℤ) : Logs P crash (checkNe x y) := by
  unfold checkNe
  split
  · exact logs_stop
  · exact logs_pure ()

theorem logs_checkPtr (b : Bool) : Logs P crash (checkPtr b) := by
  unfold checkPtr
  split
  · exact logs_pure ()
  · exact logs_stop

/-- A program with a label behind its body returns a number, unless it crashes. -/
theorem Logs.exists_ok {body : Prog ℤ} {a : ℤ} (h : Logs P False (onError body (pure a)))
    (log : List Event) : ∃ rc log', onError body (pure a) log = (.ok rc, log') := by
  have hends := h.ends log
  obtain ⟨r, log', hrun⟩ := exists_run body log
  unfold onError at hends ⊢
  rw [hrun] at hends ⊢
  rcases r with (_ | f | _) | rc
  · exact ⟨a, log', rfl⟩
  · rcases hends (.fault f) rfl with hend | ⟨-, hcrash⟩
    · cases hend
    · exact hcrash.elim
  · rcases hends .outOfFuel rfl with hend | ⟨hend, -⟩
    · cases hend
    · cases hend
  · exact ⟨rc, log', rfl⟩

end Logs

/-- The calls that neither run a script nor change the database. -/
def Event.IsQuery : Event → Prop
  | shellExec _ _ _ => False
  | update _ _ => False
  | _ => True

section Calls

variable {P : Event → Prop} {crash : Prop} (w : World)

theorem logs_script (hscript : ∀ template args rc, args.map Prod.fst = template.placeholders →
    P (.shellExec template args rc)) {template : Shell} {args : Args}
    (h : args.map Prod.fst = template.placeholders) : Logs P crash (shellExec w template args) :=
  logs_ask fun rc => hscript template args rc h

theorem logs_commandDepends (hquery : ∀ e : Event, e.IsQuery → P e) {install : CString → Prog ℤ}
    (hinstall : ∀ line, Logs P crash (install line)) (path : CString) :
    Logs P crash (commandDepends w install path) := by
  apply logs_onError _ (logs_pure _)
  refine logs_bind (logs_ask fun _ => hquery _ trivial) fun lines => ?_
  refine logs_bind (logs_checkNe _ _) fun _ => ?_
  refine logs_bind (logs_forM fun line => ?_) fun _ => logs_pure _
  exact logs_bind (hinstall _) fun rc => logs_checkEq rc 0

variable (hscript : ∀ template args rc, args.map Prod.fst = template.placeholders →
  P (.shellExec template args rc)) (hquery : ∀ e : Event, e.IsQuery → P e)

include hscript hquery

/-- A fetch, for a url that has a path. -/
theorem logs_fetchPath {install : CString → Prog ℤ} (hinstall : ∀ line, Logs P crash (install line))
    (url : CString) (fetch_only : ℤ) (path : CString) (scheme : Option CString) :
    Logs P crash (fetchPath w install url fetch_only path scheme) := by
  have hmkdir : Logs P crash (dirMakeRecursive w BUILD_DIR) := logs_ask fun _ => hquery _ trivial
  have hcurl : ∀ target : CString, Logs P crash
      (shellExec w .CURL_SH [(bytes "URL", url), (bytes "TARGET", target)]) :=
    fun target => logs_script w hscript rfl
  have htar : ∀ file : CString, Logs P crash (shellExec w .TAR_SH [(bytes "FILE", file)]) :=
    fun file => logs_script w hscript rfl
  unfold fetchPath
  split
  · refine logs_bind (logs_script w hscript rfl) fun rc => ?_
    exact logs_bind (logs_checkEq _ _) fun _ => logs_pure _
  · split
    · split
      · exact logs_stop
      · have hdepends : ∀ path, Logs P crash (do
            let rv ← commandDepends w install path
            checkEq rv 0
            pure (0 : ℤ)) := by
          intro path
          refine logs_bind (logs_commandDepends w hquery hinstall path) fun rv => ?_
          exact logs_bind (logs_checkEq _ _) fun _ => logs_pure _
        split
        · refine logs_bind (hcurl _) fun rc => ?_
          refine logs_bind (logs_checkEq _ _) fun _ => ?_
          exact logs_bind (logs_pure DEPENDS_PATH) hdepends
        · exact logs_bind (logs_pure path) hdepends
    · -- the two kinds of archives differ in what is checked behind the script
      have hgz : Logs P crash (do
          let rv ← dirMakeRecursive w BUILD_DIR
          checkEq rv APR_SUCCESS
          let _ ← shellExec w .TAR_SH [(bytes "FILE", TAR_GZ_SRC)]
          checkEq rv APR_SUCCESS
          pure (1 : ℤ)) := by
        refine logs_bind hmkdir fun rv => ?_
        refine logs_bind (logs_checkEq _ _) fun _ => ?_
        refine logs_bind (htar _) fun _ => ?_
        exact logs_bind (logs_checkEq _ _) fun _ => logs_pure _
      have hbz : Logs P crash (do
          let rc ← dirMakeRecursive w BUILD_DIR
          checkEq rc 0
          let rc ← shellExec w .TAR_SH [(bytes "FILE", TAR_BZ2_SRC)]
          checkEq rc 0
          pure (1 : ℤ)) := by
        refine logs_bind hmkdir fun rc => ?_
        refine logs_bind (logs_checkEq _ _) fun _ => ?_
        refine logs_bind (htar _) fun rc => ?_
        exact logs_bind (logs_checkEq _ _) fun _ => logs_pure _
      split
      · split
        · refine logs_bind (hcurl _) fun rc => ?_
          exact logs_bind (logs_checkEq _ _) fun _ => hgz
        · exact hgz
      · split
        · split
          · refine logs_bind (hcurl _) fun rc => ?_
            exact logs_bind (logs_checkEq _ _) fun _ => hbz
          · exact hbz
        · exact logs_stop

/-- A fetch crashes when the url has no path. -/
theorem logs_commandFetch {install : CString → Prog ℤ} (hinstall : ∀ line, Logs P crash (install line))
    (hcrash : crash) (url : CString) (fetch_only : ℤ) :
    Logs P crash (commandFetch w install url fetch_only) := by
  apply logs_onError _ (logs_pure _)
  refine logs_bind (logs_ask fun _ => hquery _ trivial) fun answer => ?_
  refine logs_bind (logs_checkEq _ _) fun _ => ?_
  refine logs_bind (logs_deref fun _ => hcrash) fun path => ?_
  exact logs_fetchPath w hscript hquery hinstall url fetch_only path _

/-- An installation never gets past its check of what the database says. -/
theorem logs_commandInstall (fuel : ℕ) (url : CString)
    (configure_opts make_opts install_opts : Option CString) :
    Logs P crash (commandInstall w (fuel + 1) url configure_opts make_opts install_opts) := by
  have hclean : Logs P crash (shellExec w .CLEANUP_SH []) := logs_script w hscript rfl
  apply logs_onError _ (logs_bind hclean fun _ => logs_pure _)
  refine logs_bind hclean fun rc => ?_
  refine logs_bind (logs_checkEq _ _) fun _ => ?_
  refine logs_bind (logs_ask fun _ => hquery _ trivial) fun rc => ⟨fun log e he => ?_, fun log e => ?_⟩
  · rw [bind_error (checkNe_neg_one rc log)] at he
    exact Or.inl he
  · intro hend
    rw [bind_error (checkNe_neg_one rc log)] at hend
    exact Or.inl (Except.error.inj hend).symm

omit hquery in
theorem logs_makeInstall (hupdate : ∀ url rc, P (.update url rc)) (url : CString)
    (make_opts install_opts : Option CString) :
    Logs P crash (makeInstall w url make_opts install_opts) := by
  refine logs_bind (logs_script w hscript rfl) fun rc => ?_
  refine logs_bind (logs_checkEq _ _) fun _ => ?_
  refine logs_bind (logs_script w hscript rfl) fun rc => ?_
  refine logs_bind (logs_checkEq _ _) fun _ => ?_
  refine logs_bind (logs_script w hscript rfl) fun rc => ?_
  refine logs_bind (logs_checkEq _ _) fun _ => ?_
  refine logs_bind (logs_ask fun rc => hupdate url rc) fun rc => ?_
  exact logs_bind (logs_checkEq _ _) fun _ => logs_pure _

theorem logs_commandBuild (hupdate : ∀ url rc, P (.update url rc)) (url : CString)
    (configure_opts make_opts install_opts : Option CString) :
    Logs P crash (commandBuild w url configure_opts make_opts install_opts) := by
  have haccess : ∀ path, Logs P crash (access w path) := fun path => logs_ask fun _ => hquery _ trivial
  have htail : Logs P crash (makeInstall w url make_opts install_opts) :=
    logs_makeInstall w hscript hupdate url make_opts install_opts
  apply logs_onError _ (logs_pure _)
  refine logs_bind (haccess _) fun rc => ?_
  refine logs_bind (logs_checkEq _ _) fun _ => ?_
  refine logs_bind (haccess _) fun rc => ?_
  split
  · refine logs_bind (logs_script w hscript rfl) fun rc => ?_
    exact logs_bind (logs_checkEq _ _) fun _ => htail
  · exact htail

omit hscript in
/-- The init asks for its directory and its file, and makes them. -/
theorem logs_dbInit : Logs P crash (dbInit w) := by
  have haccess : ∀ path, Logs P crash (access w path) := fun path => logs_ask fun _ => hquery _ trivial
  have hfile : Logs P crash (do
      let access_file ← access w DB_FILE
      if access_file = -1 then do
        let db ← fopen w DB_FILE
        checkPtr db.isSome
      pure (0 : ℤ)) := by
    refine logs_bind (haccess _) fun rc => ?_
    split
    · refine logs_bind (logs_ask fun _ => hquery _ trivial) fun db => ?_
      exact logs_bind (logs_checkPtr _) fun _ => logs_pure _
    · exact logs_pure _
  apply logs_onError _ (logs_pure _)
  refine logs_bind (haccess _) fun rc => ?_
  split
  · refine logs_bind (logs_ask fun _ => hquery _ trivial) fun rc => ?_
    exact logs_bind (logs_checkEq _ _) fun _ => hfile
  · exact hfile

omit hscript in
theorem logs_dbList : Logs P crash (dbList w) := by
  apply logs_onError _ (logs_pure _)
  refine logs_bind (logs_ask fun _ => hquery _ trivial) fun db => ?_
  exact logs_bind (logs_checkPtr _) fun _ => logs_pure _

/-- Nothing but a build needs more than scripts and queries. -/
theorem logs_main (fuel : ℕ) {opts : List Opt}
    (hbuild : (settings opts).request = .BUILD → ∀ url rc, P (.update url rc)) :
    Logs P True (main w (fuel + 1) opts) := by
  have hinit : Logs P True (do
      let rv ← dbInit w
      checkEq rv 0
      pure (0 : ℤ)) := by
    refine logs_bind (logs_dbInit w hquery) fun rv => ?_
    exact logs_bind (logs_checkEq _ _) fun _ => logs_pure _
  unfold main
  apply logs_onError _ (logs_pure _)
  cases hrequest : (settings opts).request with
  | INSTALL =>
    refine logs_bind (logs_checkPtr _) fun _ => ?_
    exact logs_bind (logs_commandInstall w hscript hquery _ _ _ _ _) fun _ => logs_pure _
  | LIST => exact logs_bind (logs_dbList w hquery) fun _ => logs_pure _
  | BUILD =>
    refine logs_bind (logs_checkNe _ _) fun _ => ?_
    refine logs_bind ?_ fun _ => logs_pure _
    exact logs_commandBuild w hscript hquery (hbuild hrequest) _ _ _ _
  | FETCH =>
    refine logs_bind (logs_checkNe _ _) fun _ => ?_
    refine logs_bind ?_ fun _ => hinit
    exact logs_commandFetch w hscript hquery
      (fun line => logs_commandInstall w hscript hquery _ _ _ _ _) trivial _ _
  | INIT => exact hinit
  | NONE => exact logs_stop

end Calls

/-! ## Builds

What makes a record is traced back: the call that records stands behind a check of each call before it,
so all of them have answered 0. -/

section Build

variable {α : Type} {log : List Event}

/-- A call whose answer has to be zero. -/
theorem run_checked (answer : List Event → ℤ) (event : ℤ → Event) (rest : Prog α) :
    (do
      let rc ← ask answer event
      checkEq rc 0
      rest) log =
      if answer log = 0 then rest (log ++ [event 0]) else (.error .error, log ++ [event (answer log)]) := by
  have hask : ask answer event log = (.ok (answer log), log ++ [event (answer log)]) := rfl
  rw [bind_ok hask]
  have hcheck := checkEq_zero (answer log) (log ++ [event (answer log)])
  by_cases hzero : answer log = 0
  · rw [if_pos hzero] at hcheck ⊢
    rw [bind_ok hcheck, hzero]
  · rw [if_neg hzero] at hcheck ⊢
    exact bind_error hcheck

/-- Behind a label that calls nothing the log is that of the body. -/
theorem onError_log (body : Prog ℤ) (a : ℤ) (log : List Event) :
    (onError body (pure a) log).2 = (body log).2 := by
  obtain ⟨r, log', hrun⟩ := exists_run body log
  unfold onError
  rw [hrun]
  rcases r with (_ | _) | _ <;> rfl

theorem bind_pure_log {β : Type} (p : Prog α) (b : β) (log : List Event) :
    ((p >>= fun _ => pure b) log).2 = (p log).2 := by
  obtain ⟨r, log', hrun⟩ := exists_run p log
  cases r with
  | ok a =>
    rw [bind_ok hrun, hrun]
    rfl
  | error e => rw [bind_error hrun, hrun]

/-- A record that is made behind such a call is made only if the call succeeds. -/
theorem record_checked {answer : List Event → ℤ} {event : ℤ → Event} {rest : Prog α} {u : CString}
    {r : ℤ} (hevent : ∀ rc, event rc ≠ .update u r) (hlog : .update u r ∉ log)
    (h : .update u r ∈ ((do
      let rc ← ask answer event
      checkEq rc 0
      rest) log).2) :
    (do
      let rc ← ask answer event
      checkEq rc 0
      rest) log = rest (log ++ [event 0]) ∧ .update u r ∉ log ++ [event 0] := by
  have hnext : ∀ rc, .update u r ∉ log ++ [event rc] := by
    intro rc hmem
    rcases List.mem_append.mp hmem with hmem | hmem
    · exact hlog hmem
    · exact hevent rc (List.mem_singleton.mp hmem).symm
  rw [run_checked] at h ⊢
  by_cases hzero : answer log = 0
  · rw [if_pos hzero]
    exact ⟨rfl, hnext 0⟩
  · rw [if_neg hzero] at h
    exact absurd h (hnext _)

/-- The last call of a build records its package, whatever the answer. -/
theorem record_last {answer : List Event → ℤ} {url u : CString} {r : ℤ} (hlog : .update u r ∉ log)
    (h : .update u r ∈ ((do
      let rc ← ask answer (.update url)
      checkEq rc 0
      pure (0 : ℤ)) log).2) :
    u = url ∧ ((do
      let rc ← ask answer (.update url)
      checkEq rc 0
      pure (0 : ℤ)) log).2 = log ++ [.update url r] := by
  have hrun : ((do
      let rc ← ask answer (.update url)
      checkEq rc 0
      pure (0 : ℤ)) log).2 = log ++ [.update url (answer log)] := by
    rw [run_checked]
    by_cases hzero : answer log = 0
    · rw [if_pos hzero, hzero]
      rfl
    · rw [if_neg hzero]
  rw [hrun] at h ⊢
  obtain ⟨rfl, rfl⟩ : u = url ∧ r = answer log := by
    simpa using (List.mem_append.mp h).resolve_left hlog
  exact ⟨rfl, rfl⟩

variable (w : World) (url : CString) (configure_opts make_opts install_opts : Option CString)

/-- The calls of it, when all of them succeed up to the last. -/
def madeInstalled (r : ℤ) : List Event :=
  [.shellExec .MAKE_SH [(bytes "OPTS", make_opts)] 0,
    .shellExec .INSTALL_SH [(bytes "TARGET", some (install_opts.getD (bytes "install")))] 0,
    .shellExec .CLEANUP_SH [] 0, .update url r]

/-- The calls of a build, when all of them succeed up to the last. -/
def built (config r : ℤ) : List Event :=
  [.access BUILD_DIR 0, .access CONFIG_SCRIPT config] ++
    ((if config = 0 then [.shellExec .CONFIGURE_SH [(bytes "OPTS", configure_opts)] 0] else []) ++
      madeInstalled url make_opts install_opts r)

variable {w url configure_opts make_opts install_opts} {u : CString} {r : ℤ}

/-- What records stands behind both runs of `make`. -/
theorem record_makeInstall (hlog : .update u r ∉ log)
    (h : .update u r ∈ (makeInstall w url make_opts install_opts log).2) :
    u = url ∧ (makeInstall w url make_opts install_opts log).2 =
      log ++ madeInstalled url make_opts install_opts r := by
  unfold makeInstall shellExec dbUpdate at h ⊢
  -- the three scripts have to succeed for the update to be reached
  obtain ⟨hmake, hlog₁⟩ := record_checked (by simp) hlog h
  rw [hmake] at h ⊢
  obtain ⟨hinstall, hlog₂⟩ := record_checked (by simp) hlog₁ h
  rw [hinstall] at h ⊢
  obtain ⟨hclean, hlog₃⟩ := record_checked (by simp) hlog₂ h
  rw [hclean] at h ⊢
  obtain ⟨rfl, hlast⟩ := record_last hlog₃ h
  refine ⟨rfl, hlast.trans ?_⟩
  simp only [madeInstalled, List.append_assoc, List.cons_append, List.nil_append]

/-- **A build records its package** behind scripts that all succeeded. -/
theorem record_commandBuild
    (h : .update u r ∈ (commandBuild w url configure_opts make_opts install_opts []).2) :
    u = url ∧ ∃ config, (commandBuild w url configure_opts make_opts install_opts []).2 =
      built url configure_opts make_opts install_opts config r := by
  obtain ⟨body, hbuild, hbody⟩ : ∃ body : Prog ℤ,
      commandBuild w url configure_opts make_opts install_opts = onError body (pure (-1)) ∧
        body = (do
          let rc ← ask (fun log => w.access log BUILD_DIR) (.access BUILD_DIR)
          checkEq rc 0
          let config ← access w CONFIG_SCRIPT
          if config = 0 then do
            let rc ← ask (fun log => w.shellExec log .CONFIGURE_SH [(bytes "OPTS", configure_opts)])
              (.shellExec .CONFIGURE_SH [(bytes "OPTS", configure_opts)])
            checkEq rc 0
            makeInstall w url make_opts install_opts
          else makeInstall w url make_opts install_opts) := ⟨_, rfl, rfl⟩
  rw [hbuild, onError_log, hbody] at h ⊢
  obtain ⟨haccess, hlog⟩ := record_checked (by simp) (by simp) h
  rw [haccess] at h ⊢
  obtain ⟨config, hconfig⟩ : ∃ config, access w CONFIG_SCRIPT ([] ++ [.access BUILD_DIR 0]) =
      (.ok config, [] ++ [.access BUILD_DIR 0] ++ [.access CONFIG_SCRIPT config]) := ⟨_, rfl⟩
  rw [bind_ok hconfig] at h ⊢
  have hlog' : Event.update u r ∉ [] ++ [.access BUILD_DIR 0] ++ [.access CONFIG_SCRIPT config] := by
    simp
  by_cases hzero : config = 0
  · rw [if_pos hzero] at h ⊢
    obtain ⟨hconfigure, hlog''⟩ := record_checked (by simp) hlog' h
    rw [hconfigure] at h ⊢
    obtain ⟨rfl, hrest⟩ := record_makeInstall hlog'' h
    refine ⟨rfl, config, hrest.trans ?_⟩
    rw [built, if_pos hzero]
    rfl
  · rw [if_neg hzero] at h ⊢
    obtain ⟨rfl, hrest⟩ := record_makeInstall hlog' h
    refine ⟨rfl, config, hrest.trans ?_⟩
    rw [built, if_neg hzero]
    rfl

end Build

/-! ## Runs of `main`

The commands together with the options. No command sees what another one has returned, so each request
can be looked at by itself. -/

variable {w : World} {fuel : ℕ} {opts : List Opt}

/-- **Every script that `main` starts is complete**: whatever the options and the answers, all its
placeholders have been replaced, by the values they stand for. -/
theorem main_scripts {template : Shell} {args : Args} {rc : ℤ}
    (h : .shellExec template args rc ∈ (main w (fuel + 1) opts []).2) :
    commandLine template args = some { template.template with
      args := instantiate args template.template.args, replace := 0 } := by
  have hlogs : Logs (fun e => ∀ template args rc, e = .shellExec template args rc →
      args.map Prod.fst = template.placeholders) True (main w (fuel + 1) opts) := by
    apply logs_main w
    · rintro template args rc hkeys _ _ _ ⟨⟩
      exact hkeys
    · rintro e he template args rc rfl
      exact he.elim
    · exact fun _ _ _ => nofun
  rcases hlogs.calls [] _ h with hmem | hkeys
  · cases hmem
  · exact commandLine_eq (hkeys template args rc rfl)

theorem main_scripts_build :
    commandLine .INSTALL_SH [(bytes "TARGET", some (bytes "install"))] =
      some { Shell.INSTALL_SH.template with
        args := instantiate [(bytes "TARGET", some (bytes "install"))] Shell.INSTALL_SH.template.args
        replace := 0 } :=
  main_scripts (show .shellExec .INSTALL_SH [(bytes "TARGET", some (bytes "install"))] 0 ∈
    (main smooth (0 + 1) [.B (bytes "x")] []).2 by decide)

/-- **A package is recorded only behind a build that succeeded**: whatever the options and the answers,
the database is changed by no request but a build, for the url of that build, once, and as the last call
of the run; every script before it has succeeded. No installation records anything. -/
theorem main_records {u : CString} {r : ℤ} (h : .update u r ∈ (main w (fuel + 1) opts []).2) :
    (settings opts).request = .BUILD ∧ (settings opts).url = some u ∧
      ∃ config, (main w (fuel + 1) opts []).2 =
        built u (settings opts).config_opts (settings opts).make_opts (settings opts).install_opts
          config r := by
  have hrequest : (settings opts).request = .BUILD := by
    -- no other request records anything
    by_contra hne
    have hlogs : Logs (fun e => ∀ u r, e ≠ .update u r) True (main w (fuel + 1) opts) := by
      apply logs_main w
      · exact fun _ _ _ _ _ _ => nofun
      · rintro e he u r rfl
        exact he
      · exact fun hbuild => absurd hbuild hne
    rcases hlogs.calls [] _ h with hmem | hno
    · cases hmem
    · exact hno u r rfl
  have hmain : main w (fuel + 1) opts = onError
      (do
        checkNe (if (settings opts).url.isSome then 1 else 0) 0
        let _ ← commandBuild w ((settings opts).url.getD []) (settings opts).config_opts
          (settings opts).make_opts (settings opts).install_opts
        pure 0)
      (pure (-1)) := by
    unfold main
    simp only [hrequest]
  rw [hmain, onError_log] at h ⊢
  cases hurl : (settings opts).url with
  | none =>
    rw [hurl] at h
    cases h
  | some url =>
    rw [hurl] at h
    have hcheck : checkNe (if (some url).isSome then 1 else 0) 0 [] = (.ok (), []) := rfl
    rw [bind_ok hcheck, bind_pure_log] at h ⊢
    obtain ⟨rfl, config, hbuilt⟩ := record_commandBuild h
    exact ⟨hrequest, rfl, config, hbuilt⟩

/-- A build where everything succeeds, with a script to configure it. -/
theorem main_records_build :
    ∃ config, (main smooth (0 + 1) [.c (bytes "-q"), .B (bytes "x")] []).2 =
      built (bytes "x") (some (bytes "-q")) none none config 0 :=
  (main_records (show .update (bytes "x") 0 ∈ (main smooth (0 + 1) [.c (bytes "-q"), .B (bytes "x")] []).2
    by decide)).2.2

/-- A request that needs a url comes with one. -/
def Settings.Addressed (s : Settings) : Prop :=
  s.request ∈ [CommandType.INSTALL, .FETCH, .BUILD] → s.url.isSome

theorem Settings.Addressed.read {s : Settings} (h : s.Addressed) (opt : Opt) :
    (s.read opt).Addressed := by
  cases opt with
  | I url | F url | B url => exact fun _ => rfl
  | L | S => exact fun h => absurd h (by simp [Settings.read])
  | c | m | i | d => exact h

theorem addressed_settings (opts : List Opt) : (settings opts).Addressed :=
  List.foldlRecOn opts Settings.read (by simp [Settings.Addressed]) fun _ h opt _ => h.read opt

/-- What `main` returns behind `DB_init`. -/
def initStatus (w : World) (log : List Event) : ℤ :=
  if (dbInit w log).1 = .ok 0 then 0 else -1

/-- The end of `main` behind `DB_init`. -/
theorem init_status (w : World) (log : List Event) :
    (onError
      (do
        let rv ← dbInit w
        checkEq rv 0
        pure 0)
      (pure (-1)) log).1 = .ok (initStatus w log) := by
  obtain ⟨rc, log', hinit⟩ : ∃ rc log', dbInit w log = (.ok rc, log') :=
    Logs.exists_ok (logs_dbInit (P := fun _ => True) w fun _ _ => trivial) log
  have hcheck := checkEq_zero rc log'
  unfold initStatus onError
  rw [bind_ok hinit, hinit]
  by_cases hrc : rc = 0
  · rw [if_pos hrc] at hcheck
    rw [bind_ok hcheck, hrc]
    rfl
  · rw [if_neg hrc] at hcheck
    rw [bind_error hcheck, if_neg fun h => hrc (Except.ok.inj h)]
    rfl

theorem onError_congr {body body' error : Prog ℤ} {log log' : List Event}
    (h : body log = body' log') : onError body error log = onError body' error log' := by
  unfold onError
  rw [h]

/-- A check that lets a program pass. -/
theorem onError_checked {check : Prog Unit} {body error : Prog ℤ} {log : List Event}
    (h : check log = (.ok (), log)) :
    onError (do
      check
      body) error log = onError body error log :=
  onError_congr (bind_ok h)

/-- A command whose result is not looked at. -/
theorem onError_ignored {p : Prog ℤ} {rc : ℤ} {log log' : List Event} (h : p log = (.ok rc, log'))
    (body error : Prog ℤ) :
    onError (do
      let _ ← p
      body) error log = onError body error log' :=
  onError_congr (bind_ok h)

/-- What the options and `DB_init` make of the exit status. -/
def exitStatus (w : World) (fuel : ℕ) (s : Settings) : ℤ :=
  match s.request with
  | .INSTALL | .LIST | .BUILD => 0
  | .FETCH => initStatus w
      (commandFetch w (fun line => commandInstall w fuel line none none none) (s.url.getD []) 1 []).2
  | .INIT => initStatus w []
  | .NONE => -1

/-- A fetch of a url that `apr_uri_parse` takes and that has no path. -/
def Pathless (w : World) (s : Settings) : Prop :=
  s.request = .FETCH ∧ (w.uriParse [] (s.url.getD [])).1 = APR_SUCCESS ∧
    (w.uriParse [] (s.url.getD [])).2.path = none

instance (w : World) (s : Settings) : Decidable (Pathless w s) :=
  inferInstanceAs (Decidable (_ ∧ _ ∧ _))

/-- **A fetch** returns a number, or it reads the path of a url that has none. -/
theorem commandFetch_cases {install : CString → Prog ℤ}
    (hinstall : ∀ line, Logs (fun _ => True) False (install line)) (url : CString) (fetch_only : ℤ)
    (log : List Event) :
    (((w.uriParse log url).1 = APR_SUCCESS ∧ (w.uriParse log url).2.path = none) ∧
        ∃ log', commandFetch w install url fetch_only log = (.error (.fault .nullDeref), log')) ∨
      ¬ ((w.uriParse log url).1 = APR_SUCCESS ∧ (w.uriParse log url).2.path = none) ∧
        ∃ rc log', commandFetch w install url fetch_only log = (.ok rc, log') := by
  obtain ⟨⟨rv, info⟩, hanswer⟩ : ∃ answer, w.uriParse log url = answer := ⟨_, rfl⟩
  have hparse : uriParse w url log = (.ok (rv, info), log ++ [.uriParse url rv]) := by
    show (Except.ok (w.uriParse log url), log ++ [.uriParse url (w.uriParse log url).1]) = _
    rw [hanswer]
  have hcheck : checkEq rv APR_SUCCESS (log ++ [.uriParse url rv]) =
      (if rv = APR_SUCCESS then .ok () else .error .error, log ++ [.uriParse url rv]) :=
    checkEq_zero rv _
  rw [hanswer]
  by_cases hrv : rv = APR_SUCCESS
  · rw [if_pos hrv] at hcheck
    have hbehind : commandFetch w install url fetch_only log =
        onError (deref info.path >>= fun path => fetchPath w install url fetch_only path info.scheme)
          (pure (-1)) (log ++ [.uriParse url rv]) :=
      onError_congr ((bind_ok hparse).trans (bind_ok hcheck))
    rw [hbehind]
    cases hpath : info.path with
    | none => exact Or.inl ⟨⟨hrv, rfl⟩, log ++ [.uriParse url rv], rfl⟩
    | some path =>
      -- from here on nothing reads a NULL pointer
      have hrest : Logs (fun _ => True) False
          (onError (fetchPath w install url fetch_only path info.scheme) (pure (-1))) :=
        logs_onError (logs_fetchPath w (fun _ _ _ _ => trivial) (fun _ _ => trivial) hinstall url
          fetch_only path info.scheme) (logs_pure _)
      exact Or.inr ⟨fun h => absurd h.2 (by simp), hrest.exists_ok _⟩
  · rw [if_neg hrv] at hcheck
    refine Or.inr ⟨fun h => hrv h.1, -1, log ++ [.uriParse url rv], ?_⟩
    unfold commandFetch
    rw [onError_error]
    · rfl
    · rw [bind_ok hparse]
      exact bind_error hcheck

/-- A url of a host alone has no path. -/
example : (main { smooth with uriParse := fun _ _ => (0, ⟨none, some (bytes "http")⟩) } 1
    [.F (bytes "http://host")] []).1 = .error (.fault .nullDeref) := rfl

end Lcthw.Devpkg
