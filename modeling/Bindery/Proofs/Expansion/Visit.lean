import Mathlib.Data.List.Induction
import Bindery.Proofs.Expansion.Conversation

/-!
# Visits

The notes of a pass tell where it reaches a directive that includes a document, and which documents it
enters, opens and closes. The conversation of a text that is expanded to its end is `Told` by the
inclusion trees of the documents that it includes: there is one tree for each such directive, in order.
Of any conversation, the visits are legal if they can be followed by a `Stage`: it knows which documents
are open, wants the document to be entered that the argument of the directive means, then wants it to be
opened, and stands still at a document that is open already. What is shown here is about notes only; that
passes make such notes is shown elsewhere.
-/

namespace Bindery.Expansion

/-! ## Notes of visits -/

/-- What a pass does about inclusions. -/
inductive Visit where
  /-- A directive on a line of a document is reached that includes another document. -/
  | calls (path : Bytes) (line : Nat) (args : List Bytes)
  /-- The last document of a chain includes the document at a path. -/
  | enters (chain : List Bytes) (path : Bytes)
  /-- A document that a chain leads to is read, and its expansion begins. -/
  | opens (chain : List Bytes) (path : Bytes)
  /-- The expansion of a document is complete. -/
  | closes (path : Bytes)
  deriving DecidableEq, Repr

def Exchange.visit? : Exchange → Option Visit
  | ⟨.note (.reached path line .input args), _⟩ => some (.calls path line args)
  | ⟨.note (.included chain path), _⟩ => some (.enters chain path)
  | ⟨.note (.opened chain path _), _⟩ => some (.opens chain path)
  | ⟨.note (.closed path), _⟩ => some (.closes path)
  | _ => none

def visits (trace : List Exchange) : List Visit := trace.filterMap Exchange.visit?

@[simp] theorem visits_nil : visits [] = [] := rfl

@[simp] theorem visits_append (first rest : List Exchange) :
    visits (first ++ rest) = visits first ++ visits rest := List.filterMap_append

def documents (vs : List Visit) : List Bytes :=
  vs.filterMap fun
    | .opens _ path => some path
    | _ => none

/-- The documents that are opened and not closed, on top of those of a chain. -/
def openAfter (chain : List Bytes) : List Visit → List Bytes
  | [] => chain
  | .calls _ _ _ :: vs => openAfter chain vs
  | .enters _ _ :: vs => openAfter chain vs
  | .opens _ path :: vs => openAfter (chain ++ [path]) vs
  | .closes _ :: vs => openAfter chain.dropLast vs

/-- What the directive for inclusions means in a document: the document that its argument names. -/
def Setting.meant (s : Setting) (path : Bytes) (args : List Bytes) : Except Resolver.Refusal Bytes :=
  s.resolver.resolve s.tree (Path.dir path) (args[0]?.getD []) s.lang

/-! ## Inclusion trees -/

namespace Node

/-- The distance of the document from the root of the inclusion tree. -/
def depth : Node → Nat
  | .mk _ _ depth _ => depth

def children : Node → List Node
  | .mk _ _ _ children => children

/-- A way down from a document through the documents it includes. -/
inductive Descent : Node → List Node → Prop
  | here (n : Node) : Descent n [n]
  | deeper {n child : Node} {rest : List Node} (h : child ∈ n.children) (down : Descent child rest) :
      Descent n (n :: rest)

/-- On no way down there is a path of a chain, or a path twice, and depths count the documents passed. -/
def Sound (chain : List Bytes) (depth : Nat) (n : Node) : Prop :=
  ∀ way, n.Descent way → (∀ m ∈ way, m.path ∉ chain) ∧ (way.map path).Nodup ∧
    ∀ (i : Nat) (m : Node), way[i]? = some m → m.depth = depth + i

theorem sound_mk {chain : List Bytes} {path dir : Bytes} {depth : Nat} {children : List Node}
    (fresh : path ∉ chain) (h : ∀ n ∈ children, n.Sound (chain ++ [path]) (depth + 1)) :
    (Node.mk path dir depth children).Sound chain depth := by
  intro way hway
  cases hway with
  | here =>
    refine ⟨List.forall_mem_singleton.2 fresh, by simp, fun i m hm => ?_⟩
    cases i with
    | zero =>
      cases hm
      rfl
    | succ i => simp at hm
  | @deeper _ child rest hchild down =>
    obtain ⟨hrest, hnodup, hdepth⟩ := h child hchild rest down
    refine ⟨?_, ?_, ?_⟩
    · refine List.forall_mem_cons.2 ⟨fresh, fun m hm hmem => ?_⟩
      exact hrest m hm (List.mem_append_left _ hmem)
    · refine List.nodup_cons.2 ⟨fun hmem => ?_, hnodup⟩
      obtain ⟨m, hm, hpath⟩ := List.mem_map.1 hmem
      exact hrest m hm (hpath ▸ List.mem_append_right _ (List.mem_singleton_self _))
    · intro i m hm
      cases i with
      | zero =>
        cases hm
        rfl
      | succ i =>
        have := hdepth i m hm
        omega

end Node

/-- A request that is no part of an inclusion. -/
def Request.Aside : Request → Prop
  | .note (.reached _ _ directive _) => directive ≠ .input
  | .note (.performed _ _ directive _ _) => directive ≠ .input
  | .note (.included ..) => False
  | .note (.opened ..) => False
  | .note (.closed ..) => False
  | _ => True

theorem Exchange.visit?_of_aside {e : Exchange} (h : e.request.Aside) : e.visit? = none := by
  obtain ⟨request, answer⟩ := e
  cases request with
  | note event =>
    cases event with
    | reached path line directive args =>
      cases directive with
      | input => exact absurd rfl h
      | _ => rfl
    | performed | sourced => rfl
    | included | opened | closed => exact h.elim
  | _ => rfl

theorem visits_of_aside {trace : List Exchange} (h : ∀ e ∈ trace, e.request.Aside) :
    visits trace = [] := by
  rw [visits, List.filterMap_eq_nil_iff]
  exact fun e he => e.visit?_of_aside (h e he)

/-- What is told of an inclusion that was performed. `inner` is what was told while the text of the
included document was expanded. -/
def inclusionOf (chain : List Bytes) (path : Bytes) (line : Nat) (args : List Bytes)
    (child text output : Bytes) (inner : List Exchange) : List Exchange :=
  ⟨.note (.reached path line .input args), ()⟩ :: ⟨.note (.included chain child), ()⟩ ::
    ⟨.note (.opened chain child text), ()⟩ :: (inner ++ [⟨.note (.closed child), ()⟩,
      ⟨.count (.directive Directive.input.name), ()⟩,
      ⟨.note (.performed path line .input args output), ()⟩])

theorem visits_inclusionOf (chain : List Bytes) (path : Bytes) (line : Nat) (args : List Bytes)
    (child text output : Bytes) (inner : List Exchange) :
    visits (inclusionOf chain path line args child text output inner) =
      .calls path line args :: .enters chain child :: .opens chain child ::
        (visits inner ++ [.closes child]) := by
  change _ :: _ :: _ :: visits (inner ++ _) = _
  rw [visits_append]
  rfl

/-- What the expansion of texts of a document tells, which stands at a path and is the last of a chain:
the inclusions that were performed, each with what was told of the document that its argument means. The
nodes are those documents, at a depth, with the nodes of what they include. -/
inductive Told (s : Setting) :
    (chain : List Bytes) → (path : Bytes) → (depth : Nat) → List Node → List Exchange → Prop
  | done {chain : List Bytes} {path : Bytes} {depth : Nat} : Told s chain path depth [] []
  | other {chain : List Bytes} {path : Bytes} {depth : Nat} {nodes : List Node} {e : Exchange}
      {rest : List Exchange} (aside : e.request.Aside) (hrest : Told s chain path depth nodes rest) :
      Told s chain path depth nodes (e :: rest)
  | inclusion {chain : List Bytes} {path : Bytes} {depth : Nat} {children nodes : List Node}
      {inner rest : List Exchange} {line : Nat} {args : List Bytes} {child text output : Bytes}
      (meant : s.meant path args = .ok child) (fresh : child ∉ chain)
      (read : s.tree.read child = .ok text)
      (hinner : Told s (chain ++ [child]) child (depth + 1) children inner)
      (hrest : Told s chain path depth nodes rest) :
      Told s chain path depth (.mk child (Path.dir child) depth children :: nodes)
        (inclusionOf chain path line args child text output inner ++ rest)

namespace Told

variable {s : Setting} {chain : List Bytes} {path : Bytes} {depth : Nat} {nodes nodes' : List Node}
  {trace trace' : List Exchange}

theorem of_aside (h : ∀ e ∈ trace, e.request.Aside) : Told s chain path depth [] trace := by
  induction trace with
  | nil => exact .done
  | cons e trace ih =>
    exact .other (h e List.mem_cons_self) (ih fun e' he' => h e' (List.mem_cons_of_mem _ he'))

theorem append (h : Told s chain path depth nodes trace) (h' : Told s chain path depth nodes' trace') :
    Told s chain path depth (nodes ++ nodes') (trace ++ trace') := by
  induction h with
  | done => exact h'
  | other aside _ ih => exact .other aside (ih h')
  | inclusion meant fresh read hinner _ _ ih =>
    rw [List.cons_append, List.append_assoc]
    exact .inclusion meant fresh read hinner (ih h')

/-- The documents that are read are those of the trees. -/
theorem documents_visits (h : Told s chain path depth nodes trace) :
    documents (visits trace) = Node.filesOf nodes := by
  induction h with
  | done => rfl
  | @other _ _ _ _ e rest aside _ ih =>
    rw [← ih, visits, List.filterMap_cons_none (e.visit?_of_aside aside)]
    rfl
  | inclusion _ _ _ _ _ ihinner ihrest =>
    rw [Node.filesOf, Node.files, ← ihinner, ← ihrest, visits_append, visits_inclusionOf]
    simp [documents]

/-- **On the way down** no path occurs twice, and depths count the documents passed. -/
theorem sound (h : Told s chain path depth nodes trace) : ∀ n ∈ nodes, n.Sound chain depth := by
  induction h with
  | done => simp
  | other _ _ ih => exact ih
  | inclusion _ fresh _ _ _ ihinner ihrest =>
    exact List.forall_mem_cons.2 ⟨Node.sound_mk fresh ihinner, ihrest⟩

end Told

/-! ## Stages -/

/-- How far visits have come. -/
inductive Stage where
  /-- The documents of a chain are open. -/
  | inside (chain : List Bytes)
  /-- A directive on a line of the last document of a chain means a document, which is to be entered
  next. -/
  | called (chain : List Bytes) (path : Bytes) (line : Nat)
  /-- A directive of the last document of a chain means no document. -/
  | stuck (chain : List Bytes)
  /-- A document is to be opened next. -/
  | before (chain : List Bytes) (path : Bytes)
  /-- A document was to be included that is open already. -/
  | cycle (chain : List Bytes) (path : Bytes) (line : Nat)
  deriving DecidableEq, Repr

namespace Stage

/-- The stage after a visit, if the visit is legal. -/
def next (s : Setting) : Stage → Visit → Option Stage
  | .inside chain, .calls path line args =>
    if chain.getLast? = some path then
      match s.meant path args with
      | .ok child => some (.called chain child line)
      | .error _ => some (.stuck chain)
    else none
  | .called chain child line, .enters c path =>
    if c = chain ∧ path = child then
      some (if chain.contains child then .cycle chain child line else .before chain child)
    else none
  | .before chain child, .opens c path =>
    if c = chain ∧ path = child then some (.inside (chain ++ [child])) else none
  | .inside chain, .closes path =>
    if chain.getLast? = some path then some (.inside chain.dropLast) else none
  | _, _ => none

def follow (s : Setting) (stage : Stage) (vs : List Visit) : Option Stage :=
  vs.foldlM (next s) stage

/-- The documents that are open. -/
def chain : Stage → List Bytes
  | .inside chain | .called chain _ _ | .stuck chain | .before chain _ | .cycle chain _ _ => chain

/-- The open documents, and the one that is entered. -/
def trail : Stage → List Bytes
  | .inside chain | .called chain _ _ | .stuck chain => chain
  | .before chain path | .cycle chain path _ => chain ++ [path]

variable {s : Setting} {stage stage' : Stage} {v : Visit} {vs ws : List Visit}

@[simp] theorem follow_nil : follow s stage [] = some stage := rfl

theorem follow_cons : follow s stage (v :: vs) = (next s stage v).bind (follow s · vs) := rfl

theorem follow_append :
    follow s stage (vs ++ ws) = (follow s stage vs).bind (follow s · ws) := List.foldlM_append

theorem next_calls {front : List Bytes} {path child : Bytes} {args : List Bytes}
    (h : s.meant path args = .ok child) (line : Nat) :
    next s (.inside (front ++ [path])) (.calls path line args) =
      some (.called (front ++ [path]) child line) := by
  simp [next, h]

theorem next_calls_refused {front : List Bytes} {path : Bytes} {args : List Bytes}
    {refusal : Resolver.Refusal} (h : s.meant path args = .error refusal) (line : Nat) :
    next s (.inside (front ++ [path])) (.calls path line args) = some (.stuck (front ++ [path])) := by
  simp [next, h]

theorem next_enters (s : Setting) (chain : List Bytes) (path : Bytes) (line : Nat) :
    next s (.called chain path line) (.enters chain path) =
      some (if chain.contains path then .cycle chain path line else .before chain path) := by
  simp [next]

/-- When a directive is reached that means a document, that document is entered. -/
theorem follow_entered {front : List Bytes} {path child : Bytes} {args : List Bytes}
    (h : s.meant path args = .ok child) (line : Nat) (vs : List Visit) :
    follow s (.inside (front ++ [path])) (.calls path line args :: .enters (front ++ [path]) child :: vs) =
      follow s (if (front ++ [path]).contains child then .cycle (front ++ [path]) child line
        else .before (front ++ [path]) child) vs := by
  rw [follow_cons, next_calls h, Option.bind_some, follow_cons, next_enters, Option.bind_some]

theorem next_opens (s : Setting) (chain : List Bytes) (path : Bytes) :
    next s (.before chain path) (.opens chain path) = some (.inside (chain ++ [path])) := by
  simp [next]

theorem next_closes (s : Setting) (chain : List Bytes) (path : Bytes) :
    next s (.inside (chain ++ [path])) (.closes path) = some (.inside chain) := by
  simp [next]

/-- **What a legal visit can be.** -/
inductive Legal (s : Setting) : Stage → Visit → Stage → Prop
  | calls {front : List Bytes} {path child : Bytes} {line : Nat} {args : List Bytes}
      (meant : s.meant path args = .ok child) :
      Legal s (.inside (front ++ [path])) (.calls path line args)
        (.called (front ++ [path]) child line)
  | refused {front : List Bytes} {path : Bytes} {line : Nat} {args : List Bytes}
      {refusal : Resolver.Refusal} (meant : s.meant path args = .error refusal) :
      Legal s (.inside (front ++ [path])) (.calls path line args) (.stuck (front ++ [path]))
  | cycle {chain : List Bytes} {path : Bytes} {line : Nat} (h : path ∈ chain) :
      Legal s (.called chain path line) (.enters chain path) (.cycle chain path line)
  | fresh {chain : List Bytes} {path : Bytes} {line : Nat} (h : path ∉ chain) :
      Legal s (.called chain path line) (.enters chain path) (.before chain path)
  | opens {chain : List Bytes} {path : Bytes} :
      Legal s (.before chain path) (.opens chain path) (.inside (chain ++ [path]))
  | closes {chain : List Bytes} {path : Bytes} :
      Legal s (.inside (chain ++ [path])) (.closes path) (.inside chain)

theorem legal_of_next (h : next s stage v = some stage') : Legal s stage v stage' := by
  unfold next at h
  split at h
  · next chain path line args =>
    split at h
    · next hlast =>
      obtain ⟨front, rfl⟩ := List.getLast?_eq_some_iff.1 hlast
      split at h
      · next child hmeant =>
        cases h
        exact .calls hmeant
      · next refusal hmeant =>
        cases h
        exact .refused hmeant
    · cases h
  · next chain child line c path =>
    split at h
    · next hsame =>
      obtain ⟨rfl, rfl⟩ := hsame
      cases h
      split
      · next hopen => exact .cycle (List.contains_iff_mem.1 hopen)
      · next hfresh => exact .fresh (mt List.contains_iff_mem.2 hfresh)
    · cases h
  · next chain child c path =>
    split at h
    · next hsame =>
      obtain ⟨rfl, rfl⟩ := hsame
      cases h
      exact .opens
    · cases h
  · next chain path =>
    split at h
    · next hlast =>
      obtain ⟨front, rfl⟩ := List.getLast?_eq_some_iff.1 hlast
      rw [List.dropLast_concat] at h
      cases h
      exact .closes
    · cases h
  · cases h

/-- A directive that means a document is reached inside of a chain. -/
theorem inside_of_calls {path child : Bytes} {line line' : Nat} {args : List Bytes} {c : List Bytes}
    (h : Legal s stage (.calls path line args) (.called c child line')) : stage = .inside c := by
  cases h
  rfl

theorem follow_cons_eq_some (h : follow s stage (v :: vs) = some stage') :
    ∃ middle, Legal s stage v middle ∧ follow s middle vs = some stage' := by
  obtain ⟨middle, hnext, hrest⟩ := Option.bind_eq_some_iff.1 (follow_cons ▸ h)
  exact ⟨middle, legal_of_next hnext, hrest⟩

theorem follow_concat (h : follow s stage (vs ++ [v]) = some stage') :
    ∃ middle, follow s stage vs = some middle ∧ Legal s middle v stage' := by
  obtain ⟨middle, hfirst, hrest⟩ := Option.bind_eq_some_iff.1 (follow_append ▸ h)
  obtain ⟨last, hlegal, hlast⟩ := follow_cons_eq_some hrest
  cases hlast
  exact ⟨middle, hfirst, hlegal⟩

/-- A stage knows the documents that are opened and not closed. -/
theorem chain_follow (h : follow s stage vs = some stage') :
    stage'.chain = openAfter stage.chain vs := by
  induction vs generalizing stage with
  | nil =>
    cases h
    rfl
  | cons v vs ih =>
    obtain ⟨middle, hlegal, hrest⟩ := follow_cons_eq_some h
    rw [ih hrest]
    cases hlegal with
    | closes => simp [chain, openAfter]
    | _ => rfl

/-- What follows when a directive is reached that means a document: it is entered. That ends the visits if
it is open already, and else it is opened. -/
theorem follow_calls {path child : Bytes} {line : Nat} {args : List Bytes}
    (hmeant : s.meant path args = .ok child)
    (h : follow s stage (vs ++ .calls path line args :: ws) = some stage') :
    ∃ front, follow s stage vs = some (.inside (front ++ [path])) ∧
      ((ws = [] ∧ stage' = .called (front ++ [path]) child line) ∨
      ∃ rest, ws = .enters (front ++ [path]) child :: rest ∧
        (child ∈ front ++ [path] → rest = [] ∧ stage' = .cycle (front ++ [path]) child line) ∧
        (child ∉ front ++ [path] → (rest = [] ∧ stage' = .before (front ++ [path]) child) ∨
          ∃ more, rest = .opens (front ++ [path]) child :: more)) := by
  obtain ⟨middle, hfirst, hrest⟩ := Option.bind_eq_some_iff.1 (follow_append ▸ h)
  obtain ⟨called, hlegal, hrest⟩ := follow_cons_eq_some hrest
  cases hlegal with
  | refused hrefused =>
    rw [hmeant] at hrefused
    cases hrefused
  | @calls front _ child' _ _ hmeant' =>
    obtain rfl : child = child' := Except.ok.inj (hmeant.symm.trans hmeant')
    refine ⟨front, hfirst, ?_⟩
    cases ws with
    | nil => exact .inl ⟨rfl, (Option.some.inj hrest).symm⟩
    | cons w rest =>
      obtain ⟨entered, hlegal, hrest⟩ := follow_cons_eq_some hrest
      refine .inr ?_
      cases hlegal with
      | cycle hopen =>
        refine ⟨rest, rfl, fun _ => ?_, fun hfresh => absurd hopen hfresh⟩
        cases rest with
        | nil => exact ⟨rfl, (Option.some.inj hrest).symm⟩
        | cons w rest =>
          obtain ⟨_, hlegal, -⟩ := follow_cons_eq_some hrest
          cases hlegal
      | fresh hfresh =>
        refine ⟨rest, rfl, fun hopen => absurd hopen hfresh, fun _ => ?_⟩
        cases rest with
        | nil => exact .inl ⟨rfl, (Option.some.inj hrest).symm⟩
        | cons w rest =>
          obtain ⟨_, hlegal, -⟩ := follow_cons_eq_some hrest
          cases hlegal
          exact .inr ⟨rest, rfl⟩

/-- The visits of what is told are legal, and lead back to where they began. -/
theorem follow_told {chain : List Bytes} {path : Bytes} {depth : Nat}
    {nodes : List Node} {trace : List Exchange} (h : Told s chain path depth nodes trace)
    (hchain : ∃ front, chain = front ++ [path]) :
    follow s (.inside chain) (visits trace) = some (.inside chain) := by
  induction h with
  | done => rfl
  | @other _ _ _ _ e rest aside _ ih =>
    rw [visits, List.filterMap_cons_none (e.visit?_of_aside aside)]
    exact ih hchain
  | inclusion meant fresh _ _ _ ihinner ihrest =>
    obtain ⟨front, rfl⟩ := hchain
    rw [visits_append, visits_inclusionOf, follow_append, follow_entered meant,
      if_neg (mt List.contains_iff_mem.1 fresh), follow_cons, next_opens, Option.bind_some]
    simp only [follow_append, ihinner ⟨_, rfl⟩, Option.bind_some, follow_cons, next_closes, follow_nil]
    exact ihrest ⟨_, rfl⟩

/-! ## The way to a stage -/

variable {root : Bytes}

/-- A document is to be entered right after the directive is reached that means it. -/
theorem follow_called {path : Bytes} {line : Nat} {c : List Bytes}
    (h : follow s (.before [] root) vs = some (.called c path line)) :
    ∃ first front last args, vs = first ++ [.calls last line args] ∧ c = front ++ [last] ∧
      s.meant last args = .ok path := by
  rcases List.eq_nil_or_concat vs with rfl | ⟨first, v, rfl⟩
  · cases h
  · rw [List.concat_eq_append] at h ⊢
    obtain ⟨middle, -, hlegal⟩ := follow_concat h
    cases hlegal with
    | @calls front last _ _ args hmeant => exact ⟨first, front, last, args, rfl, rfl, hmeant⟩

/-- A cycle is reached by entering a document that is open. -/
theorem follow_cycle {path : Bytes} {line : Nat} {c : List Bytes}
    (h : follow s (.before [] root) vs = some (.cycle c path line)) :
    path ∈ c ∧ ∃ first front last args, vs = first ++ [.calls last line args, .enters c path] ∧
      c = front ++ [last] ∧ s.meant last args = .ok path := by
  rcases List.eq_nil_or_concat vs with rfl | ⟨vs, v, rfl⟩
  · cases h
  · rw [List.concat_eq_append] at h ⊢
    obtain ⟨middle, hfirst, hlegal⟩ := follow_concat h
    cases hlegal with
    | cycle hopen =>
      obtain ⟨first, front, last, args, rfl, rfl, hmeant⟩ := follow_called hfirst
      exact ⟨hopen, first, front, last, args, by simp, rfl, hmeant⟩

theorem head?_trail (h : follow s (.before [] root) vs = some stage) :
    stage.trail = [] ∨ stage.trail.head? = some root := by
  induction vs using List.reverseRecOn generalizing stage with
  | nil =>
    cases h
    exact .inr rfl
  | append_singleton vs v ih =>
    obtain ⟨middle, hfirst, hlegal⟩ := follow_concat h
    have hmiddle := ih hfirst
    have hconcat : ∀ (c : List Bytes) (p : Bytes), (c = [] ∨ c.head? = some root) → c ≠ [] →
        (c ++ [p]).head? = some root := by
      rintro c p (rfl | hhead) hne
      · exact absurd rfl hne
      · rw [List.head?_append, hhead]
        rfl
    cases hlegal with
    | calls | refused | opens => exact hmiddle
    | cycle | fresh =>
      obtain ⟨_, front, last, _, -, rfl, -⟩ := follow_called hfirst
      exact .inr (hconcat _ _ hmiddle (by simp))
    | @closes c p =>
      cases c with
      | nil => exact .inl rfl
      | cons => simpa [trail] using hmiddle

/-- Each consecutive pair of a chain was an inclusion: a directive of the first was reached whose argument
means the second, which was entered from the first. -/
def Performed (s : Setting) (vs : List Visit) (chain : List Bytes) : Prop :=
  ∀ front p q back, chain = front ++ p :: q :: back →
    ∃ line args, s.meant p args = .ok q ∧
      [.calls p line args, .enters (front ++ [p]) q] <:+: vs

theorem Performed.append {chain : List Bytes} (h : Performed s vs chain) (ws : List Visit) :
    Performed s (vs ++ ws) chain := by
  intro front p q back hchain
  obtain ⟨line, args, hmeant, hinfix⟩ := h front p q back hchain
  exact ⟨line, args, hmeant, hinfix.trans (List.prefix_append vs ws).isInfix⟩

theorem Performed.dropLast {chain : List Bytes} {path : Bytes} (h : Performed s vs (chain ++ [path])) :
    Performed s vs chain := by
  intro front p q back hchain
  exact h front p q (back ++ [path]) (by simp [hchain])

theorem Performed.concat {front : List Bytes} {last path : Bytes} {line : Nat} {args : List Bytes}
    (h : Performed s vs (front ++ [last])) (hmeant : s.meant last args = .ok path) :
    Performed s (vs ++ [.calls last line args, .enters (front ++ [last]) path])
      (front ++ [last] ++ [path]) := by
  intro front' p q back hchain
  rcases List.eq_nil_or_concat back with rfl | ⟨back, b, rfl⟩
  · have hsplit : front ++ [last] ++ [path] = front' ++ [p] ++ [q] := by simpa using hchain
    obtain ⟨hfront, hq⟩ := List.append_inj' hsplit rfl
    obtain ⟨rfl, hp⟩ := List.append_inj' hfront rfl
    cases hq
    cases hp
    exact ⟨line, args, hmeant, (List.suffix_append vs _).isInfix⟩
  · have hsplit : front ++ [last] ++ [path] = front' ++ p :: q :: back ++ [b] := by simpa using hchain
    obtain ⟨hfront, -⟩ := List.append_inj' hsplit rfl
    exact h.append _ front' p q back hfront

/-- **Each open document was included by the one before it.** -/
theorem performed_trail (h : follow s (.before [] root) vs = some stage) :
    Performed s vs stage.trail := by
  induction hn : vs.length using Nat.strongRecOn generalizing vs stage with
  | ind n ih =>
    rcases List.eq_nil_or_concat vs with rfl | ⟨first, v, rfl⟩
    · cases h
      intro front p q back hchain
      have := congrArg List.length hchain
      simp [trail] at this
      omega
    · rw [List.concat_eq_append] at h hn ⊢
      obtain ⟨middle, hfirst, hlegal⟩ := follow_concat h
      rw [List.length_append, List.length_singleton] at hn
      have hmiddle := ih first.length (by omega) hfirst rfl
      have hentered : ∀ {c : List Bytes} {p : Bytes} {line : Nat}, middle = .called c p line →
          Performed s (first ++ [.enters c p]) (c ++ [p]) := by
        rintro c p line rfl
        obtain ⟨start, front, last, args, rfl, rfl, hmeant⟩ := follow_called hfirst
        obtain ⟨inside, hinside, hcalls⟩ := follow_concat hfirst
        rw [List.length_append, List.length_singleton] at hn
        have hstart : Performed s start (front ++ [last]) := by
          have htrail := ih start.length (by omega) hinside rfl
          rwa [inside_of_calls hcalls] at htrail
        simpa using hstart.concat hmeant
      cases hlegal with
      | calls | refused | opens => exact hmiddle.append _
      | cycle | fresh => exact hentered rfl
      | closes => exact (hmiddle.dropLast).append _

end Stage

end Bindery.Expansion
