import Mathlib.Data.Option.Basic
import Bindery.Config.Basic
import Bindery.Proofs.Backoff

/-!
# What a configuration says of fetching

The same words of a document are read several times on their way to the client that fetches: they are
decoded, written as the vocabulary does, replaced by standard words where they are empty, checked, and
turned into a policy and into credentials. A configuration that passes the check `Honours` its document:
nothing that is given is replaced on the way, and the client can only fail to log in with a key that
cannot be loaded.
-/

namespace Bindery

open Text (bytes)

/-! ## Words -/

namespace Vocabulary

variable {α : Type} {v : Vocabulary (Option α)} {word : Bytes} {meaning : α}

theorem mem_of_read (hfallback : v.fallback = none) (h : v.read word = some meaning) :
    (clean word, some meaning) ∈ v.entries := by
  have hfind : v.entries.lookup (clean word) = some (some meaning) := by
    rw [read, find?, hfallback] at h
    cases hlookup : v.entries.lookup (clean word) with
    | none => rw [hlookup] at h; cases h
    | some found => rw [hlookup] at h; exact congrArg some h
  obtain ⟨before, after, hentries, -⟩ := List.lookup_eq_some_iff.1 hfind
  exact hentries ▸ List.mem_append_right _ List.mem_cons_self

end Vocabulary

namespace BackoffMode

theorem isKnown_of_read {word : Bytes} {mode : BackoffMode} (h : vocabulary.read word = some mode) :
    mode.isKnown = true := by
  have hentries : ∀ e ∈ vocabulary.entries, e.2.all isKnown = true := by decide
  exact hentries _ (Vocabulary.mem_of_read rfl h)

theorem name_ne_nil {mode : BackoffMode} (h : mode.isKnown = true) : mode.name ≠ [] := by
  cases mode with
  | fixed => decide
  | linear => decide
  | exponential => decide
  | other name => cases h

end BackoffMode

namespace Repository.Credentials

/-- Only `none` and the empty word stand for no login. -/
theorem read_eq_none_iff {word : Bytes} :
    vocabulary.read word = some (bytes "none") ↔
      Vocabulary.clean word ∈ [bytes "none", bytes ""] := by
  constructor
  · intro h
    have hentries : ∀ e ∈ vocabulary.entries, e.2 = some (bytes "none") →
        e.1 ∈ [bytes "none", bytes ""] := by decide
    exact hentries _ (Vocabulary.mem_of_read rfl h) rfl
  · intro h
    have hlookup : ∀ w ∈ [bytes "none", bytes ""],
        (vocabulary.entries.lookup w).getD none = some (bytes "none") := by decide
    exact hlookup _ h

end Repository.Credentials

namespace Config

/-! ## Settings of a document -/

/-- The node that a document gives for a setting, unless it is null. -/
def given? : List Bytes → Yaml.Node → Option Yaml.Node
  | [], node => if node.isNull then none else some node
  | name :: path, node => do given? path (← (← node.fields?).lookup name)

/-- What a document says of a setting: a standing value where it is not given. -/
def said? {α : Type} (root : Option Yaml.Node) (path : List Bytes) (read? : Yaml.Node → Option α)
    (standing : α) : Option α :=
  match root.bind (given? path) with
  | none => some standing
  | some node => read? node

section Said

variable {α : Type} {root : Option Yaml.Node} {node : Yaml.Node} {fields : List (Bytes × Yaml.Node)}
  {name : Bytes} {outer path : List Bytes} {read? : Yaml.Node → Option α} {standing value : α}

theorem fields?_of_isNull (h : node.isNull = true) : node.fields? = none := by
  cases node with
  | scalar tag style text => rfl
  | sequence items => rfl
  | mapping entries =>
    have hmapping : (Yaml.Node.mapping entries).isNull = false := rfl
    rw [h] at hmapping
    cases hmapping

theorem given?_of_isNull (h : node.isNull = true) : given? path node = none := by
  cases path with
  | nil => rw [given?, if_pos h]
  | cons name path => rw [given?, fields?_of_isNull h]; rfl

theorem given?_cons (h : node.fields? = some fields) :
    given? (name :: path) node = (fields.lookup name).bind (given? path) := by
  rw [given?, h]; rfl

theorem given?_append : given? (outer ++ path) node = (given? outer node).bind (given? path) := by
  induction outer generalizing node with
  | nil =>
    -- A null section is not given, and has no settings either.
    by_cases hnull : node.isNull = true
    · simp only [List.nil_append, given?, if_pos hnull, given?_of_isNull hnull, Option.bind_none]
    · simp only [List.nil_append, given?, if_neg hnull, Option.bind_some]
  | cons name rest ih =>
    simp only [List.cons_append, given?, Option.bind_eq_bind, Option.bind_assoc, ih]

theorem bind_given?_of_empty (h : root.bind (given? []) = none) (path : List Bytes) :
    root.bind (given? path) = none := by
  cases root with
  | none => rfl
  | some node =>
    have hpath : given? ([] ++ path) node = (given? [] node).bind (given? path) := given?_append
    rw [Option.bind_some] at h ⊢
    rw [h, List.nil_append] at hpath
    exact hpath

theorem said?_append :
    said? root (outer ++ path) read? standing
      = said? (root.bind (given? outer)) path read? standing := by
  rw [said?, said?, Option.bind_assoc]
  simp only [given?_append]

theorem field?_eq_said? (h : node.fields? = some fields) :
    field? fields name read? standing = said? (some node) [name] read? standing := by
  rw [said?, Option.bind_some, given?_cons h, field?]
  cases fields.lookup name with
  | none => rfl
  | some node =>
    by_cases hnull : node.isNull = true
    · simp only [Option.bind_some, given?, if_pos hnull]
    · simp only [Option.bind_some, given?, if_neg hnull]

theorem said?_of_missing (h : root.bind (given? outer) = none) :
    said? root (outer ++ path) read? standing = some standing := by
  rw [said?_append, h]; rfl

/-- What is said of a setting is read in its section. -/
theorem said?_of_given (hgiven : root.bind (given? outer) = some node) (h : node.fields? = some fields) :
    said? root (outer ++ [name]) read? standing = field? fields name read? standing := by
  rw [said?_append, hgiven, field?_eq_said? h]

theorem eq_or_read?_of_said? (h : said? root path read? standing = some value) :
    standing = value ∨ ∃ node, read? node = some value := by
  rw [said?] at h
  split at h
  · exact .inl (Option.some.inj h)
  · next node _ => exact .inr ⟨node, h⟩

theorem fields?_of_knownFields? {names : List Bytes} (h : knownFields? names node = some fields) :
    node.fields? = some fields := by
  simp only [knownFields?, Option.bind_eq_bind, Option.bind_eq_some_iff] at h
  obtain ⟨found, hfound, -, -, hsame⟩ := h
  rw [hfound, hsame]

end Said

theorem int?_lt {node : Yaml.Node} {n : Int} (h : node.int? = some n) : n < 2 ^ 63 := by
  have hlimit : ((Nat.pow 2 63 : Nat) : Int) = 2 ^ 63 := rfl
  unfold Yaml.Node.int? at h
  split at h
  · split at h
    · split at h <;> grind
    -- A number with a fraction: below zero it is cut off at the least word.
    · split at h <;> grind
    · cases h
  · cases h

/-! ## Reading -/

/-- The settings for fetching are as a document says, before they are completed. -/
structure ReadFrom (root : Option Yaml.Node) (f : FetchSettings) : Prop where
  depth : said? root ["git", "depth"] Yaml.Node.int? 0 = some f.depth
  credentials : said? root ["git", "auth"] (fun n => (credentialsOf? n).map some) none
    = some f.credentials
  retries : said? root ["git", "max_retries"] Yaml.Node.int? 2 = some f.retries
  backoff : ∃ word, said? root ["git", "retry_backoff"] Yaml.Node.text? "linear" = some word ∧
    f.backoff = .ofWord word
  initialDelay : said? root ["git", "retry_initial_delay"] Yaml.Node.text? "1s" = some f.initialDelay
  maxDelay : said? root ["git", "retry_max_delay"] Yaml.Node.text? "30s" = some f.maxDelay

section Reading

variable {root : Option Yaml.Node} {node : Yaml.Node} {f : FetchSettings} {c : Config}

/-- The standard settings are those of a document that says nothing of fetching. -/
theorem readFrom_standard (h : root.bind (given? ["git"]) = none) : ReadFrom root {} := by
  have hsaid : ∀ {α : Type} (name : Bytes) (read? : Yaml.Node → Option α) (standing : α),
      said? root ["git", name] read? standing = some standing := fun _ _ _ => said?_of_missing h
  exact ⟨hsaid _ _ _, hsaid _ _ _, hsaid _ _ _, ⟨_, hsaid _ _ _, by decide⟩, hsaid _ _ _, hsaid _ _ _⟩

theorem readFrom_of_fetchingOf? (hgiven : root.bind (given? ["git"]) = some node)
    (h : fetchingOf? {} node = some f) : ReadFrom root f := by
  simp only [fetchingOf?, Option.bind_eq_bind, Option.bind_eq_some_iff] at h
  obtain ⟨fields, hknown, word, hword, depth, hdepth, credentials, hcredentials, retries, hretries,
    initial, hinitial, longest, hlongest, hsettings⟩ := h
  have hsaid : ∀ {α : Type} (name : Bytes) (read? : Yaml.Node → Option α) (standing : α),
      said? root ["git", name] read? standing = field? fields name read? standing :=
    fun _ _ _ => said?_of_given hgiven (fields?_of_knownFields? hknown)
  obtain rfl := Option.some.inj hsettings
  exact
    { depth := (hsaid _ _ _).trans hdepth
      credentials := (hsaid _ _ _).trans hcredentials
      retries := (hsaid _ _ _).trans hretries
      backoff := ⟨word, (hsaid _ _ _).trans hword, rfl⟩
      initialDelay := (hsaid _ _ _).trans hinitial
      maxDelay := (hsaid _ _ _).trans hlongest }

/-- What is decoded from a document is what it says under each name. -/
theorem said_of_ofNode? (h : ofNode? node = some c) :
    said? (some node) [bytes "input"] Yaml.Node.text? (bytes "book.md") = some c.input ∧
      said? (some node) [bytes "root"] Yaml.Node.text? [] = some c.root ∧
      said? (some node) [bytes "name"] Yaml.Node.text? [] = some c.name ∧
      said? (some node) [bytes "git"] (fetchingOf? {}) {} = some c.fetching := by
  simp only [ofNode?, Option.bind_eq_bind, Option.bind_eq_some_iff] at h
  obtain ⟨fields, hknown, _, -, input, hinput, root, hroot, _, -, name, hname, _, -, fetching, hfetching, _, -,
    _, -, hsettings⟩ := h
  obtain rfl := Option.some.inj hsettings
  rw [field?_eq_said? (fields?_of_knownFields? hknown)] at hinput hroot hname hfetching
  exact ⟨hinput, hroot, hname, hfetching⟩

theorem readFrom_of_ofNode? (h : ofNode? node = some c) : ReadFrom (some node) c.fetching := by
  obtain ⟨-, -, -, hfetching⟩ := said_of_ofNode? h
  -- What is not given as a section stands as in the standard settings.
  rw [said?] at hfetching
  split at hfetching
  · next hmissing =>
    rw [← Option.some.inj hfetching]
    exact readFrom_standard hmissing
  · next git hgit => exact readFrom_of_fetchingOf? hgit hfetching

/-- A document is decoded over the standard settings, which stand as they are where it has no content. -/
inductive DecodedFrom : Option Yaml.Node → Config → Prop
  | standard {root : Option Yaml.Node} (h : root.bind (given? []) = none) : DecodedFrom root {}
  | node {node : Yaml.Node} {read : Config} (h : ofNode? node = some read) : DecodedFrom (some node) read

theorem finish_eq_ok_iff {read : Config} :
    read.finish = .ok c ↔ read.normalize.complete = c ∧ c.violations = [] := by
  rw [finish]
  cases hviolations : read.normalize.complete.violations with
  | nil =>
    constructor
    · intro h
      obtain rfl := Except.ok.inj h
      exact ⟨rfl, hviolations⟩
    · rintro ⟨rfl, -⟩
      rfl
  | cons v rest =>
    constructor
    · intro h
      cases h
    · rintro ⟨rfl, h⟩
      rw [hviolations] at h
      cases h

/-- A configuration is decoded from its document, completed and checked. -/
theorem exists_decoded_of_parse {parser : Yaml.Parser} {env : Environment} {text : Bytes}
    (h : parseWith parser env text = .ok c) :
    ∃ root, ∃ read : Config, parser (env.expand text) = some root ∧ DecodedFrom root read ∧
      read.normalize.complete = c ∧ c.violations = [] := by
  delta parseWith at h
  dsimp only at h
  split at h
  · cases h
  · next hroot =>
    exact ⟨none, {}, hroot, .standard rfl, finish_eq_ok_iff.1 h⟩
  · next node hroot =>
    split at h
    · next hnull =>
      exact ⟨some node, {}, hroot, .standard (given?_of_isNull hnull), finish_eq_ok_iff.1 h⟩
    · split at h
      · next read hread =>
        exact ⟨some node, read, hroot, .node hread, finish_eq_ok_iff.1 h⟩
      · cases h

theorem DecodedFrom.readFrom {read : Config} (h : DecodedFrom root read) :
    ReadFrom root read.fetching := by
  cases h with
  | standard hempty => exact readFrom_standard (bind_given?_of_empty hempty _)
  | node hread => exact readFrom_of_ofNode? hread

theorem exists_read_of_parse {parser : Yaml.Parser} {env : Environment} {text : Bytes}
    (h : parseWith parser env text = .ok c) :
    ∃ root, ∃ read : Config, parser (env.expand text) = some root ∧ ReadFrom root read.fetching ∧
      read.normalize.complete = c ∧ c.violations = [] := by
  obtain ⟨root, read, hroot, hdecoded, hfinished⟩ := exists_decoded_of_parse h
  exact ⟨root, read, hroot, hdecoded.readFrom, hfinished⟩

end Reading

/-! ## Checking -/

/-- The settings for fetching pass the check, with delays that are durations. -/
structure Checked (f : FetchSettings) (initial max : Int64) : Prop where
  retries_nonneg : 0 ≤ f.retries
  known : f.backoff.isKnown = true
  initialDelay : Duration.parse? f.initialDelay = some initial
  maxDelay : Duration.parse? f.maxDelay = some max
  initial_pos : 0 < initial
  initial_le_max : initial ≤ max
  credentials : ∀ c ∈ f.credentials, credentialViolations c = []

section Checking

variable {field value : Bytes} {f : FetchSettings} {initial max : Int64}

theorem exists_of_positiveDuration (h : (Violation.positiveDuration field value).2 = []) :
    ∃ d, Duration.parse? value = some d ∧ 0 < d ∧ Violation.positiveDuration field value = (d, []) := by
  rw [Violation.positiveDuration] at h ⊢
  split at h
  · next d hd =>
    split at h
    · next hpos => exact ⟨d, hd, hpos, by simp only [if_pos hpos]⟩
    · cases h
  · cases h

theorem exists_checked (h : fetchViolations f = []) : ∃ initial max, Checked f initial max := by
  simp only [fetchViolations, List.append_eq_nil_iff] at h
  obtain ⟨⟨⟨⟨⟨hretries, hknown⟩, hinitial⟩, hmax⟩, horder⟩, hcredentials⟩ := h
  obtain ⟨initial, hinitial, hinitial_pos, hinitial_eq⟩ := exists_of_positiveDuration hinitial
  obtain ⟨max, hmax, hmax_pos, hmax_eq⟩ := exists_of_positiveDuration hmax
  -- Both delays are above zero, so that the check has compared them.
  rw [hinitial_eq, hmax_eq] at horder
  refine ⟨initial, max, ?_, ?_, hinitial, hmax, hinitial_pos, ?_, fun c hc => ?_⟩
  · by_contra hneg
    rw [if_pos (by omega)] at hretries
    cases hretries
  · by_contra hunknown
    rw [if_neg hunknown] at hknown
    cases hknown
  · by_contra hlt
    rw [if_pos (by simp [hinitial_pos, hmax_pos, Int64.not_le.1 hlt])] at horder
    cases horder
  · rw [Option.mem_def.1 hc] at hcredentials
    exact hcredentials

/-- Settings that pass the check are not replaced on the way into the policy. -/
theorem Checked.policy_eq (h : Checked f initial max) (hretries : f.retries < 2 ^ 63) :
    f.policy = { mode := f.backoff, initial, max, retries := Int64.ofInt f.retries } := by
  have hnonneg : 0 ≤ Int64.ofInt f.retries := by
    rw [Int64.le_iff_toInt_le, Int64.toInt_ofInt_of_le (by have := h.retries_nonneg; omega) hretries]
    exact h.retries_nonneg
  rw [FetchSettings.policy, h.initialDelay, h.maxDelay]
  exact Backoff.ofSettings_eq h.known h.initial_pos h.initial_le_max hnonneg

end Checking

/-! ## Credentials -/

/-- Credentials are as a document says, with the type in the spelling of the vocabulary. -/
structure SaysCredentials (root : Option Yaml.Node) (c : Repository.Credentials) : Prop where
  type : ∃ word, said? root ["git", "auth", "type"] Yaml.Node.text? [] = some word ∧
    Repository.Credentials.vocabulary.read word = some c.type
  token : said? root ["git", "auth", "token"] Yaml.Node.text? [] = some c.token
  username : said? root ["git", "auth", "username"] Yaml.Node.text? [] = some c.username
  password : said? root ["git", "auth", "password"] Yaml.Node.text? [] = some c.password
  keyPath : said? root ["git", "auth", "key_path"] Yaml.Node.text? [] = some c.keyPath

/-- Credentials with their type as the vocabulary writes it, if it is a known one. -/
def written (c : Repository.Credentials) : Repository.Credentials :=
  { c with type := (Repository.Credentials.vocabulary.read c.type).getD c.type }

section Credentials

variable {root : Option Yaml.Node} {node : Yaml.Node} {c : Repository.Credentials}
  {loadKey : Repository.KeyLoader} {fault : Fault}

theorem credentialViolations_eq_nil (h : credentialViolations c = []) :
    c.type = bytes "none" ∨ c.type = bytes "token" ∧ c.token ≠ [] ∨
      c.type = bytes "basic" ∧ c.username ≠ [] ∧ c.password ≠ [] ∨ c.type = bytes "ssh" := by
  simp only [credentialViolations, beq_iff_eq] at h
  split at h
  · next hnone => exact .inl hnone
  · split at h
    · next htoken =>
      refine .inr (.inl ⟨htoken, fun hempty => ?_⟩)
      rw [hempty] at h
      cases h
    · split at h
      · next hbasic =>
        refine .inr (.inr (.inl ⟨hbasic, fun hempty => ?_, fun hempty => ?_⟩))
        · rw [hempty] at h
          cases h
        · rw [hempty, List.isEmpty_nil, Bool.or_true] at h
          cases h
      · split at h
        · next hssh => exact .inr (.inr (.inr hssh))
        · cases h

/-- A type that passes the check is one of the vocabulary. -/
theorem read_eq_written (h : credentialViolations (written c) = []) :
    Repository.Credentials.vocabulary.read c.type = some (written c).type := by
  have hknown : ∀ word ∈ [bytes "none", bytes "token", bytes "basic", bytes "ssh"],
      Repository.Credentials.vocabulary.read word = some word := by decide
  cases hread : Repository.Credentials.vocabulary.read c.type with
  | some type => rw [written, hread]; rfl
  | none =>
    -- An unknown word is kept as it is, but the check lets only known words pass.
    have htype : (written c).type = c.type := by rw [written, hread]; rfl
    have hmem : c.type ∈ [bytes "none", bytes "token", bytes "basic", bytes "ssh"] := by
      rw [← htype]
      obtain h | h | h | h := credentialViolations_eq_nil h <;> simp [h]
    rw [hknown _ hmem] at hread
    cases hread

theorem saysCredentials_of_credentialsOf? (hgiven : root.bind (given? ["git", "auth"]) = some node)
    (h : credentialsOf? node = some c) (hcheck : credentialViolations (written c) = []) :
    SaysCredentials root (written c) := by
  have hread := read_eq_written hcheck
  simp only [credentialsOf?, Option.bind_eq_bind, Option.bind_eq_some_iff] at h
  obtain ⟨fields, hknown, type, htype, token, htoken, username, husername, password, hpassword, keyPath,
    hkeyPath, hcredentials⟩ := h
  have hsaid : ∀ name : Bytes, said? root ["git", "auth", name] Yaml.Node.text? []
      = field? fields name Yaml.Node.text? [] :=
    fun _ => said?_of_given hgiven (fields?_of_knownFields? hknown)
  obtain rfl := Option.some.inj hcredentials
  exact
    { type := ⟨type, (hsaid _).trans htype, hread⟩
      token := (hsaid _).trans htoken
      username := (hsaid _).trans husername
      password := (hsaid _).trans hpassword
      keyPath := (hsaid _).trans hkeyPath }

def keyUser (c : Repository.Credentials) : Bytes := if c.username.isEmpty then "git" else c.username

/-- Credentials name a key that cannot be loaded, and a fault says so. -/
def KeyFails (loadKey : Repository.KeyLoader) (c : Repository.Credentials) (fault : Fault) : Prop :=
  c.type = bytes "ssh" ∧ ∃ cause, loadKey (keyUser c) c.keyPath c.password = .error cause ∧
    fault = .raiseFrom cause .auth "cannot load ssh key" [("key_path", .str c.keyPath)]

theorem loginWith_none (htype : c.type = bytes "none") :
    Repository.Credentials.loginWith loadKey (some c) = .ok none := by
  simp only [Repository.Credentials.loginWith, htype]
  rfl

theorem loginWith_token (htype : c.type = bytes "token") (htoken : c.token ≠ []) :
    Repository.Credentials.loginWith loadKey (some c)
      = .ok (some (.password "token" c.token)) := by
  simp only [Repository.Credentials.loginWith, htype, List.isEmpty_eq_false_iff.2 htoken]
  rfl

theorem loginWith_basic (htype : c.type = bytes "basic") (husername : c.username ≠ [])
    (hpassword : c.password ≠ []) :
    Repository.Credentials.loginWith loadKey (some c)
      = .ok (some (.password c.username c.password)) := by
  simp only [Repository.Credentials.loginWith, htype, List.isEmpty_eq_false_iff.2 husername,
    List.isEmpty_eq_false_iff.2 hpassword]
  rfl

theorem loginWith_ssh (htype : c.type = bytes "ssh") :
    Repository.Credentials.loginWith loadKey (some c) =
      match loadKey (keyUser c) c.keyPath c.password with
      | .ok key => .ok (some (.key (keyUser c) key))
      | .error cause =>
        .error (.raiseFrom cause .auth "cannot load ssh key" [("key_path", .str c.keyPath)]) := by
  simp only [Repository.Credentials.loginWith, htype]
  rfl

/-- With credentials that pass the check, only a key that cannot be loaded is a failure. -/
theorem loginWith_eq_error_iff_of_checked (h : credentialViolations c = []) :
    Repository.Credentials.loginWith loadKey (some c) = .error fault ↔ KeyFails loadKey c fault := by
  have hothers : ∀ login, Repository.Credentials.loginWith loadKey (some c) = .ok login →
      c.type ≠ bytes "ssh" →
      (Repository.Credentials.loginWith loadKey (some c) = .error fault ↔ KeyFails loadKey c fault) :=
    fun login hlogin htype => by
      rw [hlogin]
      exact iff_of_false (fun hfails => nomatch hfails) fun hfails => htype hfails.1
  obtain htype | ⟨htype, htoken⟩ | ⟨htype, husername, hpassword⟩ | htype := credentialViolations_eq_nil h
  · exact hothers _ (loginWith_none htype) (htype ▸ by decide)
  · exact hothers _ (loginWith_token htype htoken) (htype ▸ by decide)
  · exact hothers _ (loginWith_basic htype husername hpassword) (htype ▸ by decide)
  · rw [loginWith_ssh htype, KeyFails, and_iff_right htype]
    cases loadKey (keyUser c) c.keyPath c.password with
    | ok key => exact iff_of_false (fun hfails => nomatch hfails) fun ⟨_, hfails, _⟩ => nomatch hfails
    | error cause =>
      constructor
      · intro hfails
        exact ⟨cause, rfl, (Except.error.inj hfails).symm⟩
      · rintro ⟨cause, hcause, rfl⟩
        rw [Except.error.inj hcause]

end Credentials

/-! ## From the document to the client -/

/-- What the client that fetches is given is what a document says. -/
structure Honours (root : Option Yaml.Node) (f : FetchSettings) : Prop where
  depth : said? root ["git", "depth"] Yaml.Node.int? 0 = some f.depth
  /-- The policy can be applied. -/
  problem? : f.policy.problem? = none
  mode : ∃ word, said? root ["git", "retry_backoff"] Yaml.Node.text? "linear" = some word ∧
    BackoffMode.vocabulary.read (orElse word "linear") = some f.policy.mode
  /-- The delays are those of the texts. Neither is replaced, nor cut down to the other. -/
  initial : ∃ text, said? root ["git", "retry_initial_delay"] Yaml.Node.text? "1s" = some text ∧
    Duration.parse? (orElse text "1s") = some f.policy.initial
  max : ∃ text, said? root ["git", "retry_max_delay"] Yaml.Node.text? "30s" = some text ∧
    Duration.parse? (orElse text "30s") = some f.policy.max
  retries : said? root ["git", "max_retries"] Yaml.Node.int? 2 = some f.policy.retries.toInt
  /-- No login is used exactly where none is given, or one whose type is `none` or empty. -/
  login?_eq_none_iff : f.login? = none ↔ root.bind (given? ["git", "auth"]) = none ∨
    ∃ word, said? root ["git", "auth", "type"] Yaml.Node.text? [] = some word ∧
      Vocabulary.clean word ∈ [bytes "none", bytes ""]
  credentials : ∀ c ∈ f.login?, SaysCredentials root c
  /-- Whatever loads the keys, only a key that cannot be loaded is a failure to log in. -/
  loginWith_eq_error_iff : ∀ loadKey fault,
    Repository.Credentials.loginWith loadKey f.login? = .error fault ↔
      ∃ c ∈ f.login?, KeyFails loadKey c fault

section Honours

variable {root : Option Yaml.Node} {f done : FetchSettings} {c : Config}

/-- A document gives credentials where the settings have them. -/
theorem ReadFrom.credentials_cases (h : ReadFrom root f) :
    root.bind (given? ["git", "auth"]) = none ∧ f.credentials = none ∨
      ∃ node auth, root.bind (given? ["git", "auth"]) = some node ∧ credentialsOf? node = some auth ∧
        f.credentials = some auth := by
  have hcredentials := h.credentials
  rw [said?] at hcredentials
  split at hcredentials
  · next hmissing => exact .inl ⟨hmissing, (Option.some.inj hcredentials).symm⟩
  · next node hgiven =>
    obtain ⟨auth, hauth, hsame⟩ := Option.map_eq_some_iff.1 hcredentials
    exact .inr ⟨node, auth, hgiven, hauth, hsame.symm⟩

/-- A mode that passes the check is what its word means, the standard one for the empty word. -/
theorem read_orElse_eq {word : Bytes} {mode : BackoffMode} (hword : mode = .ofWord word)
    (hknown : (if mode.name.isEmpty then .linear else mode : BackoffMode).isKnown = true) :
    BackoffMode.vocabulary.read (orElse word "linear")
      = some (if mode.name.isEmpty then .linear else mode) := by
  rw [BackoffMode.ofWord] at hword
  cases hread : BackoffMode.vocabulary.read word with
  | some meant =>
    obtain rfl : mode = meant := by rw [hword, hread]; rfl
    have hname := BackoffMode.name_ne_nil (BackoffMode.isKnown_of_read hread)
    -- The empty word has no meaning, so nothing stands in for a word that has one.
    have hempty : word ≠ [] := fun hempty => by
      rw [hempty] at hread
      cases hread
    rw [orElse, if_neg (mt List.isEmpty_iff.1 hempty), if_neg (mt List.isEmpty_iff.1 hname), hread]
  | none =>
    obtain rfl : mode = .other word := by rw [hword, hread]; rfl
    cases word with
    | nil => decide
    | cons a rest => cases hknown

theorem ReadFrom.saysCredentials (h : ReadFrom root f)
    (hdone : done.credentials = f.credentials.map written)
    (hcheck : ∀ c ∈ done.credentials, credentialViolations c = []) :
    ∀ c ∈ done.credentials, SaysCredentials root c := by
  intro c hc
  obtain ⟨-, hnone⟩ | ⟨node, auth, hgiven, hauth, hsome⟩ := h.credentials_cases
  · rw [hdone, hnone] at hc
    cases hc
  · have hwritten : written auth = c := by
      rw [hdone, hsome] at hc
      exact Option.some.inj hc
    subst hwritten
    exact saysCredentials_of_credentialsOf? hgiven hauth (hcheck _ hc)

theorem mem_credentials_of_login? {c : Repository.Credentials} (h : c ∈ f.login?) : c ∈ f.credentials :=
  (Option.filter_eq_some_iff.1 h).1

theorem ReadFrom.login?_eq_none_iff (h : ReadFrom root f)
    (hdone : done.credentials = f.credentials.map written)
    (hcheck : ∀ c ∈ done.credentials, credentialViolations c = []) :
    done.login? = none ↔ root.bind (given? ["git", "auth"]) = none ∨
      ∃ word, said? root ["git", "auth", "type"] Yaml.Node.text? [] = some word ∧
        Vocabulary.clean word ∈ [bytes "none", bytes ""] := by
  obtain ⟨hmissing, hnone⟩ | ⟨node, auth, hgiven, -, hsome⟩ := h.credentials_cases
  · have hlogin : done.login? = none := by rw [FetchSettings.login?, hdone, hnone]; rfl
    exact iff_of_true hlogin (.inl hmissing)
  · have hcredentials : done.credentials = some (written auth) := by rw [hdone, hsome]; rfl
    obtain ⟨word, hword, hread⟩ := (h.saysCredentials hdone hcheck _ hcredentials).type
    have hlogin : done.login? = none ↔ (written auth).type = bytes "none" := by
      rw [FetchSettings.login?, hcredentials]
      simp
    have htype : (written auth).type = bytes "none" ↔ Vocabulary.clean word ∈ [bytes "none", bytes ""] := by
      rw [← Repository.Credentials.read_eq_none_iff, hread, Option.some_inj]
    simp only [hlogin, htype, hgiven, reduceCtorEq, false_or, hword, Option.some_inj, exists_eq_left']

theorem loginWith_login?_eq_error_iff {loadKey : Repository.KeyLoader} {fault : Fault}
    (hcheck : ∀ c ∈ f.credentials, credentialViolations c = []) :
    Repository.Credentials.loginWith loadKey f.login? = .error fault ↔
      ∃ c ∈ f.login?, KeyFails loadKey c fault := by
  cases hlogin : f.login? with
  | none => exact iff_of_false (fun hfails => nomatch hfails) fun ⟨_, hc, _⟩ => nomatch hc
  | some c =>
    rw [loginWith_eq_error_iff_of_checked (hcheck c (mem_credentials_of_login? hlogin))]
    simp only [Option.mem_def, Option.some_inj, exists_eq_left']

/-- **The client is given what the document says.** -/
theorem honours_of_parse {parser : Yaml.Parser} {env : Environment} {text : Bytes}
    (h : parseWith parser env text = .ok c) :
    ∃ root, parser (env.expand text) = some root ∧ Honours root c.fetching := by
  obtain ⟨root, read, hroot, hread, rfl, hviolations⟩ := exists_read_of_parse h
  obtain ⟨-, hfetch⟩ := List.append_eq_nil_iff.1 hviolations
  obtain ⟨initial, max, hchecked⟩ := exists_checked hfetch
  have hnonneg : 0 ≤ read.fetching.retries := hchecked.retries_nonneg
  have hretries : read.fetching.retries < 2 ^ 63 := by
    obtain hstandard | ⟨node, hnode⟩ := eq_or_read?_of_said? hread.retries
    · omega
    · exact int?_lt hnode
  have hpolicy := hchecked.policy_eq hretries
  have hdone : read.normalize.complete.fetching.credentials
      = read.fetching.credentials.map written := rfl
  obtain ⟨word, hword, hbackoff⟩ := hread.backoff
  refine ⟨root, hroot, ?_⟩
  exact
    { depth := hread.depth
      problem? := (Backoff.sound_ofSettings _ _ _ _).problem?_eq_none
      mode := ⟨word, hword, by rw [hpolicy]; exact read_orElse_eq hbackoff hchecked.known⟩
      initial := ⟨_, hread.initialDelay, by rw [hpolicy]; exact hchecked.initialDelay⟩
      max := ⟨_, hread.maxDelay, by rw [hpolicy]; exact hchecked.maxDelay⟩
      retries := by
        have htoInt := Int64.toInt_ofInt_of_le (show -2 ^ 63 ≤ read.fetching.retries by omega) hretries
        rw [hpolicy]
        exact hread.retries.trans (congrArg some htoInt.symm)
      login?_eq_none_iff := hread.login?_eq_none_iff hdone hchecked.credentials
      credentials := fun c hc =>
        hread.saysCredentials hdone hchecked.credentials c (mem_credentials_of_login? hc)
      loginWith_eq_error_iff := fun _ _ => loginWith_login?_eq_error_iff hchecked.credentials }

/-- A document whose words are in capitals. -/
def capitals : Bytes := "git: \x7bretry_backoff: FIXED, auth: \x7btype: SSH, key_path: key\x7d\x7d\n"

/-- Words in capitals are understood. -/
theorem honours_of_parse_capitals :
    ∃ c, parseWith Yaml.parse? [] capitals = .ok c ∧
      (∃ root, Yaml.parse? (Environment.expand [] capitals) = some root ∧ Honours root c.fetching) ∧
      c.fetching.policy.mode = .fixed ∧
      c.fetching.login? = some { type := "ssh", keyPath := "key" } := by
  have hgiven : ((parseWith Yaml.parse? [] capitals).toOption.map fun c => (c.fetching.policy.mode, c.fetching.login?))
      = some (.fixed, some { type := "ssh", keyPath := "key" }) := by decide +kernel
  cases hparse : parseWith Yaml.parse? [] capitals with
  | error fault =>
    rw [hparse] at hgiven
    cases hgiven
  | ok c =>
    rw [hparse] at hgiven
    obtain ⟨hmode, hlogin⟩ := Prod.mk.inj (Option.some.inj hgiven)
    exact ⟨c, rfl, honours_of_parse hparse, hmode, hlogin⟩

end Honours

end Config

end Bindery
