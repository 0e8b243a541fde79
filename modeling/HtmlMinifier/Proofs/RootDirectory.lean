import HtmlMinifier.Environment
import Mathlib.Data.List.Basic

/-!
# The root directory

A path may be seen from one root and the result from another.  That is the same as seeing it
from one root, which is the inner root seen from the outer one.  The slash between a directory
and what is in it depends on the end of the directory alone, and an empty path ends as the
directory in front of it does, with the slash that it needs.  So it does not matter in which
order three paths are joined (`join_join`).

A process records its root directory, or that it has none, with the first `init` and never
again.  So the answers of an environment are those of a list that is cut in two at the first
`init`: in front of it there is no root, and behind it there is one root for all requests.
-/

namespace HtmlMinifier

namespace Path

/-! ## Paths behind paths -/

theorem join_of_isAbsolute {path : Path} (absolute : path.isAbsolute = true) (directory : Path) :
    directory.join path = path :=
  if_pos absolute

theorem join_of_relative {path : Path} (relative : path.isAbsolute = false) (directory : Path) :
    directory.join path = ⟨directory.text ++ directory.separator ++ path.text⟩ :=
  if_neg (by simp [relative])

/-- An empty directory has no separator. -/
theorem separator_of_empty {directory : Path} (empty : directory.text.toList = []) :
    directory.separator = "" := by
  rw [separator, empty]
  rfl

/-- A path with its separator needs no other one. -/
theorem separator_text_separator (directory : Path) :
    separator ⟨directory.text ++ directory.separator⟩ = "" := by
  cases last : directory.text.toList.getLast? with
  | none =>
      have empty := List.getLast?_eq_none_iff.mp last
      rw [separator_of_empty]
      rw [String.toList_append, separator_of_empty empty, empty]
      rfl
  | some c =>
      by_cases slash : c = '/'
      · simp [separator, last, slash]
      · simp [separator, last, slash]

/-- What stands behind a joined path is parted from it as from its last part. -/
theorem separator_join {path : Path} (relative : path.isAbsolute = false) (directory : Path) :
    (directory.join path).separator = path.separator := by
  rw [join_of_relative relative]
  cases last : path.text.toList.getLast? with
  | none =>
      -- the path is empty, and what ends the joined one is the separator of the directory
      have empty := List.getLast?_eq_none_iff.mp last
      have whole : directory.text ++ directory.separator ++ path.text =
          directory.text ++ directory.separator := by
        apply String.toList_inj.mp
        simp [empty]
      rw [whole, separator_text_separator, separator_of_empty empty]
  | some c => simp [separator, last]

/-- A joined path is absolute where one of its parts is. -/
theorem isAbsolute_join (directory path : Path) :
    (directory.join path).isAbsolute = (directory.isAbsolute || path.isAbsolute) := by
  cases relative : path.isAbsolute with
  | true => rw [join_of_isAbsolute relative, relative, Bool.or_true]
  | false =>
      rw [join_of_relative relative, Bool.or_false]
      cases shape : directory.text.toList with
      | nil =>
          have here : directory.isAbsolute = false := by simp [isAbsolute, shape]
          rw [here, ← relative]
          simp [isAbsolute, shape, separator_of_empty shape]
      | cons c letters => simp [isAbsolute, shape]

/-- Three paths are joined alike from the front and from the back. -/
theorem join_join (first second path : Path) :
    first.join (second.join path) = (first.join second).join path := by
  cases relative : path.isAbsolute with
  | true =>
      rw [join_of_isAbsolute relative, join_of_isAbsolute relative, join_of_isAbsolute relative]
  | false =>
      cases relative' : second.isAbsolute with
      | true =>
          -- the first directory is left out on both sides
          have whole : (second.join path).isAbsolute = true := by
            rw [isAbsolute_join, relative', Bool.true_or]
          rw [join_of_isAbsolute whole, join_of_isAbsolute relative']
      | false =>
          have whole : (second.join path).isAbsolute = false := by
            rw [isAbsolute_join, relative', relative, Bool.or_false]
          have separated := separator_join relative' first
          rw [join_of_relative whole, join_of_relative relative (first.join second), separated,
            join_of_relative relative, join_of_relative relative']
          simp [String.append_assoc]

/-! ## Roots within roots -/

/-- The root that two roots come to: the inner one seen from the outer one. -/
def nest : Option Path → Option Path → Option Path
  | none, inner => inner
  | some outer, none => some outer
  | some outer, some inner => some (resolve (some outer) inner)

/-- A path seen from one root and then from another is seen from the root that they come to.
An absolute path is the same under every root. -/
theorem resolve_resolve (outer inner : Option Path) (path : Path) :
    resolve outer (resolve inner path) = resolve (nest outer inner) path ∧
      (path.isAbsolute = true → ∀ root, resolve root path = path) := by
  constructor
  · cases outer with
    | none => rfl
    | some outer =>
        cases inner with
        | none => rfl
        | some inner => exact join_join outer inner path
  · exact resolve_of_isAbsolute

/-- A root that ends in a slash, with a relative root in it. -/
theorem resolve_resolve_absolute :
    resolve (some ⟨"/srv/"⟩) (resolve (some ⟨"site"⟩) ⟨"/tmp/a.html"⟩) =
        resolve (nest (some ⟨"/srv/"⟩) (some ⟨"site"⟩)) ⟨"/tmp/a.html"⟩ ∧
      isAbsolute ⟨"/tmp/a.html"⟩ = true ∧
      ∀ root, resolve root ⟨"/tmp/a.html"⟩ = ⟨"/tmp/a.html"⟩ :=
  have absolute : isAbsolute ⟨"/tmp/a.html"⟩ = true := by decide +kernel
  ⟨(resolve_resolve _ _ _).1, absolute, (resolve_resolve none none _).2 absolute⟩

end Path

namespace Environment

/-! ## Recorded once -/

/-- Whether a request is there to record the root directory. -/
def Request.isInit : Request → Bool
  | init _ => true
  | _ => false

/-- What is answered as long as nothing has been recorded. -/
def beforehand : Request → Reply
  | .init _ => .done
  | .rootDir => .root none
  | .resolve path => .path path

/-- What is answered once a root directory, or that there is none, has been recorded. -/
def afterwards (root : Option Path) : Request → Reply
  | .init _ => .refused {}
  | .rootDir => .root root
  | .resolve path => .path (Path.resolve root path)

/-- The environment when some requests have been answered. -/
def after (environment : Environment) (requests : List Request) : Environment :=
  requests.foldl (fun environment request => (environment.answer request).2) environment

theorem answers_append (environment : Environment) (first second : List Request) :
    environment.answers (first ++ second) =
      environment.answers first ++ (environment.after first).answers second := by
  induction first generalizing environment with
  | nil => rfl
  | cons request first ih => exact congrArg _ (ih (environment.answer request).2)

theorem after_append (environment : Environment) (first second : List Request) :
    environment.after (first ++ second) = (environment.after first).after second :=
  List.foldl_append

/-- Before anything is recorded only an `init` changes the environment. -/
theorem answer_fresh {request : Request} (other : request.isInit = false) :
    fresh.answer request = (beforehand request, fresh) := by
  cases request with
  | init root => simp [Request.isInit] at other
  | rootDir => rfl
  | resolve path => rfl

/-- Afterwards no request does. -/
theorem answer_recorded (root : Option Path) (request : Request) :
    answer ⟨some root⟩ request = (afterwards root request, ⟨some root⟩) := by
  cases request <;> rfl

theorem run_fresh {requests : List Request}
    (others : ∀ request ∈ requests, request.isInit = false) :
    fresh.answers requests = requests.map beforehand ∧ fresh.after requests = fresh := by
  induction requests with
  | nil => exact ⟨rfl, rfl⟩
  | cons request requests ih =>
      obtain ⟨here, behind⟩ := List.forall_mem_cons.mp others
      obtain ⟨replies, stays⟩ := ih behind
      rw [answers, after, List.foldl_cons, answer_fresh here]
      exact ⟨congrArg _ replies, stays⟩

theorem run_recorded (root : Option Path) (requests : List Request) :
    answers ⟨some root⟩ requests = requests.map (afterwards root) ∧
      after ⟨some root⟩ requests = ⟨some root⟩ := by
  induction requests with
  | nil => exact ⟨rfl, rfl⟩
  | cons request requests ih =>
      obtain ⟨replies, stays⟩ := ih
      rw [answers, after, List.foldl_cons, answer_recorded]
      exact ⟨congrArg _ replies, stays⟩

/-- From a new environment on, requests up to the first `init` and behind it are answered each
in their own way. -/
theorem run_fresh_append {before : List Request}
    (others : ∀ request ∈ before, request.isInit = false) (root : Option Path)
    (behind : List Request) :
    fresh.answers (before ++ .init root :: behind) =
        before.map beforehand ++ .done :: behind.map (afterwards root) ∧
      fresh.after (before ++ .init root :: behind) = ⟨some root⟩ := by
  obtain ⟨replies, stays⟩ := run_fresh others
  obtain ⟨replies', stays'⟩ := run_recorded root behind
  constructor
  · rw [answers_append, replies, stays, ← replies']
    rfl
  · rw [after_append, stays]
    exact stays'

theorem beforehand_ne_refused (request : Request) (cause : AlreadyInitialized) :
    beforehand request ≠ .refused cause := by
  cases request <;> simp [beforehand]

/-- Only an `init` is refused. -/
theorem afterwards_eq_refused_iff (root : Option Path) (request : Request)
    (cause : AlreadyInitialized) :
    afterwards root request = .refused cause ↔ request.isInit = true := by
  cases request <;> simp [afterwards, Request.isInit]

theorem exists_first_init (requests : List Request) :
    (∀ request ∈ requests, request.isInit = false) ∨
      ∃ before root behind, requests = before ++ .init root :: behind ∧
        ∀ request ∈ before, request.isInit = false := by
  induction requests with
  | nil => exact .inl (by simp)
  | cons request requests ih =>
      cases here : request.isInit with
      | true =>
          cases request with
          | init root => exact .inr ⟨[], root, requests, rfl, by simp⟩
          | rootDir => contradiction
          | resolve path => contradiction
      | false =>
          rcases ih with others | ⟨before, root, behind, rfl, others⟩
          · exact .inl (List.forall_mem_cons.mpr ⟨here, others⟩)
          · exact .inr ⟨request :: before, root, behind, rfl,
              List.forall_mem_cons.mpr ⟨here, others⟩⟩

/-- The root directory is recorded once.  As long as there has been no `init`, requests are
answered as where there is no root.  The first `init` is done; behind it requests are answered
with its root, each further `init` is refused, and the environment stays as the first has left
it, whatever is asked.  Without the refused ones the other answers are the same. -/
theorem answers_fresh_eq (requests : List Request) :
    ((∀ request ∈ requests, request.isInit = false) ∧
        fresh.answers requests = requests.map beforehand) ∨
      ∃ before root behind, requests = before ++ .init root :: behind ∧
        (∀ request ∈ before, request.isInit = false) ∧
        fresh.answers requests =
          before.map beforehand ++ .done :: behind.map (afterwards root) ∧
        (∀ further, fresh.after (before ++ .init root :: further) = ⟨some root⟩) ∧
        fresh.answers (before ++ .init root :: behind.filter (!·.isInit)) =
          (fresh.answers requests).filter (· ≠ .refused {}) := by
  rcases exists_first_init requests with others | ⟨before, root, behind, rfl, others⟩
  · exact .inl ⟨others, (run_fresh others).1⟩
  · have kept : (before.map beforehand).filter (· ≠ .refused {}) = before.map beforehand := by
      rw [List.filter_eq_self]
      intro reply member
      obtain ⟨request, -, rfl⟩ := List.mem_map.mp member
      simpa using beforehand_ne_refused request {}
    have dropped : (behind.map (afterwards root)).filter (· ≠ .refused {}) =
        (behind.filter (!·.isInit)).map (afterwards root) := by
      rw [List.filter_map]
      congr 2
      funext request
      simp [afterwards_eq_refused_iff]
    refine .inr ⟨before, root, behind, rfl, others, (run_fresh_append others root behind).1,
      fun further => (run_fresh_append others root further).2, ?_⟩
    rw [(run_fresh_append others root _).1, (run_fresh_append others root behind).1,
      List.filter_append, kept, List.filter_cons_of_pos (by simp), dropped]

end Environment

end HtmlMinifier
