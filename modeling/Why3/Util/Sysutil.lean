import Mathlib.Data.List.Basic
import Mathlib.Tactic.Linarith

/-!
# Relative paths

Paths relative to the directory of a session, after `src/util/sysutil.ml`, on a file system
without symbolic links.

`relativizeFilename` undoes a `..` of the base by the component before it. The way back is lost if
there is none or if it is not a name. `systemDependentAbsolutePath` takes a `..` by dropping the
last component of the directory, which again has to be a name.
-/

namespace Why3.Sysutil

open List

inductive Component where
  | current
  | parent
  | name (s : String)
  deriving DecidableEq

def Component.isName : Component → Bool
  | .name _ => true
  | _ => false

inductive Path where
  | root
  | single (c : Component)
  | concat (d : Path) (c : Component)
  deriving DecidableEq

def Path.dirname : Path → Path
  | .root => .root
  | .single _ => .single .current
  | .concat d _ => d

def Path.basename : Path → Component
  | .root => .name "/"
  | .single c => c
  | .concat _ c => c

def Path.isRelative : Path → Bool
  | .root => false
  | .single _ => true
  | .concat d _ => d.isRelative

/-- The root is the only path that is its own directory, and the directory of a single component
is the current one. -/
def pathAux (acc : List Component) : Path → List Component
  | .root => acc
  | .single c => c :: acc
  | .concat d c => if d = .single .current then c :: acc else pathAux (c :: acc) d

def systemIndependentPathOfFile (f : Path) : List Component := pathAux [] f

def systemDependentAbsolutePath (isRegularDir : Path → Bool) : Path → List Component → Path
  | dir, [] => dir
  | dir, x :: xs =>
    if x = .parent ∧ isRegularDir dir then
      systemDependentAbsolutePath isRegularDir dir.dirname xs
    else systemDependentAbsolutePath isRegularDir (.concat dir x) xs

/-- The rest of the base is undone, with the components passed so far in `abs`. -/
def relativizeAux2 : List Component → List Component → List Component → List Component
  | _, rel, [] => rel
  | abs, rel, .current :: rb => relativizeAux2 abs rel rb
  | x :: rem, rel, .parent :: rb => relativizeAux2 rem (x :: rel) rb
  | [], rel, .parent :: rb => relativizeAux2 [] rel rb
  | abs, rel, .name s :: rb => relativizeAux2 (.name s :: abs) (.parent :: rel) rb

def relativizeAux : List Component → List Component → List Component → List Component
  | abs, x :: rb, y :: rf =>
    if x = y then relativizeAux (x :: abs) rb rf else relativizeAux2 abs (y :: rf) (x :: rb)
  | abs, ab, af => relativizeAux2 abs af ab

def relativizeFilename (base f : Path) : List Component :=
  relativizeAux [] (systemIndependentPathOfFile base) (systemIndependentPathOfFile f)

/-! ## Locations

A location is the list of the names that lead to it, the last one first. -/

/-- The parent of the root is the root. -/
def go (l : List String) : Component → List String
  | .current => l
  | .parent => l.tail
  | .name s => s :: l

def walk (l : List String) (cs : List Component) : List String := cs.foldl go l

def Path.location (cwd : List String) : Path → List String
  | .root => []
  | .single c => go cwd c
  | .concat d c => go (d.location cwd) c

def isRegularDir (isDir : List String → Bool) (cwd : List String) : Path → Bool
  | .root => true
  | .single c => isDir (go cwd c)
  | .concat d c => isRegularDir isDir cwd d && isDir (go (d.location cwd) c)

variable {abs p ab af cs : List Component} {cwd l : List String}

theorem walk_cons (l : List String) (c : Component) (cs : List Component) :
    walk l (c :: cs) = walk (go l c) cs := rfl

theorem walk_append (l : List String) (cs cs' : List Component) :
    walk l (cs ++ cs') = walk (walk l cs) cs' := foldl_append

theorem walk_pathAux (f : Path) (acc : List Component) :
    walk (if f.isRelative then cwd else []) (pathAux acc f) = walk (f.location cwd) acc := by
  induction f generalizing acc with
  | root => rfl
  | single c => rfl
  | concat d c ih =>
    rw [pathAux]
    by_cases hd : d = .single .current
    · rw [hd, if_pos rfl]
      rfl
    · rw [if_neg hd]
      exact ih (c :: acc)

theorem Path.location_eq (f : Path) :
    f.location cwd = walk (if f.isRelative then cwd else []) (systemIndependentPathOfFile f) :=
  (walk_pathAux f []).symm

/-! ## The way back -/

def undoes : List Component → List Component → Bool
  | _, [] => true
  | abs, .current :: p => undoes abs p
  | x :: abs, .parent :: p => x.isName && undoes abs p
  | [], .parent :: _ => false
  | abs, .name s :: p => undoes (.name s :: abs) p

def commonPart : List Component → List Component → List Component
  | x :: ab, y :: af => if x = y then x :: commonPart ab af else []
  | _, _ => []

/-- After the part that it has in common with `f`, every `..` of the base undoes a name. -/
def Undone (base f : Path) : Prop :=
  let ab := systemIndependentPathOfFile base
  let common := commonPart ab (systemIndependentPathOfFile f)
  undoes common.reverse (ab.drop common.length) = true

theorem relativizeAux_eq (abs ab af : List Component) : ∃ rb rf,
    ab = commonPart ab af ++ rb ∧ af = commonPart ab af ++ rf ∧
      relativizeAux abs ab af = relativizeAux2 ((commonPart ab af).reverse ++ abs) rf rb := by
  fun_induction relativizeAux abs ab af with
  | case1 abs rb y rf ih =>
    obtain ⟨rb', rf', hb, hf, hrel⟩ := ih
    refine ⟨rb', rf', ?_, ?_, ?_⟩
    · rw [commonPart, if_pos rfl, cons_append, ← hb]
    · rw [commonPart, if_pos rfl, cons_append, ← hf]
    · rw [commonPart, if_pos rfl, reverse_cons, append_assoc]
      exact hrel
  | case2 abs x rb y rf hne =>
    rw [commonPart, if_neg hne]
    exact ⟨x :: rb, y :: rf, rfl, rfl, rfl⟩
  | case3 abs ab af hne =>
    have hnil : commonPart ab af = [] := by
      unfold commonPart
      split
      · next x rb y rf => exact (hne x rb y rf rfl rfl).elim
      · rfl
    rw [hnil]
    exact ⟨ab, af, rfl, rfl, rfl⟩

theorem walk_relativizeAux2 (h : undoes abs p = true) (rel : List Component) (l : List String) :
    walk l (abs.reverse ++ p ++ relativizeAux2 abs rel p) = walk l (abs.reverse ++ rel) := by
  fun_induction relativizeAux2 abs rel p with
  | case1 abs rel => rw [append_nil]
  | case2 abs rel rb ih =>
    rw [← ih h]
    simp only [append_assoc, cons_append, walk_append l, walk_cons, go]
  | case3 x rem rel rb ih =>
    rw [undoes, Bool.and_eq_true] at h
    cases x with
    | name s =>
      have hback := ih h.2
      simp only [append_assoc, cons_append, reverse_cons, nil_append, walk_append l, walk_cons, go,
        tail_cons] at hback ⊢
      exact hback
    | _ => cases h.1
  | case4 rel rb ih => cases h
  | case5 abs rel s rb ih =>
    have hback := ih h
    simp only [append_assoc, cons_append, reverse_cons, nil_append, walk_append l, walk_cons, go,
      tail_cons] at hback ⊢
    exact hback

def Component.depth : Component → ℤ
  | .current => 0
  | .parent => -1
  | .name _ => 1

def depth (cs : List Component) : ℤ := (cs.map Component.depth).sum

@[simp] theorem depth_cons (c : Component) (cs : List Component) :
    depth (c :: cs) = c.depth + depth cs := rfl

@[simp] theorem depth_append (cs cs' : List Component) :
    depth (cs ++ cs') = depth cs + depth cs' := by simp [depth]

theorem length_walk (h : cs.length ≤ l.length) :
    ((walk l cs).length : ℤ) = l.length + depth cs := by
  induction cs generalizing l with
  | nil => simp [walk, depth]
  | cons c cs ih =>
    have hgo : ((go l c).length : ℤ) = l.length + c.depth ∧ cs.length ≤ (go l c).length := by
      rw [length_cons] at h
      cases c <;> simp only [go, Component.depth, length_tail, length_cons] <;> omega
    rw [walk_cons, ih hgo.2, hgo.1, depth_cons, add_assoc]

/-- The list never leads down too far, and where a `..` is not undone it does not lead far
enough. -/
theorem depth_relativizeAux2 (abs rel p : List Component) :
    depth (relativizeAux2 abs rel p) + depth p ≤ depth rel ∧
      (depth rel ≤ depth (relativizeAux2 abs rel p) + depth p → undoes abs p = true) := by
  fun_induction relativizeAux2 abs rel p with
  | case1 abs rel => exact ⟨(add_zero _).le, fun _ => rfl⟩
  | case2 abs rel rb ih => simpa [undoes, Component.depth] using ih
  | case3 x rem rel rb ih =>
    cases x <;> simp only [depth_cons, Component.depth, undoes, Component.isName] at ih ⊢
    · exact ⟨by linarith [ih.1], fun h => by linarith [ih.1]⟩
    · exact ⟨by linarith [ih.1], fun h => by linarith [ih.1]⟩
    · exact ⟨by linarith [ih.1], fun h => ih.2 (by linarith)⟩
  | case4 rel rb ih =>
    simp only [depth_cons, Component.depth]
    exact ⟨by linarith [ih.1], fun h => by linarith [ih.1]⟩
  | case5 abs rel s rb ih =>
    simp only [depth_cons, Component.depth] at ih ⊢
    exact ⟨by linarith [ih.1], fun h => ih.2 (by linarith)⟩

theorem walk_relativizeAux_iff :
    (∀ l, walk l (ab ++ relativizeAux [] ab af) = walk l af) ↔
      undoes (commonPart ab af).reverse (ab.drop (commonPart ab af).length) = true := by
  obtain ⟨rb, rf, hb, hf, hrel⟩ := relativizeAux_eq [] ab af
  rw [append_nil] at hrel
  generalize commonPart ab af = common at *
  subst hb hf
  rw [hrel, drop_left]
  refine ⟨fun h => (depth_relativizeAux2 common.reverse rf rb).2 ?_, fun h l => ?_⟩
  · -- from a deep location, the depths of the two ways are compared
    let rel := relativizeAux2 common.reverse rf rb
    have hl := congrArg (fun l => (l.length : ℤ))
      (h (replicate ((common ++ rb ++ rel).length + (common ++ rf).length) ""))
    rw [length_walk (by simp [rel]), length_walk (by simp)] at hl
    simp only [depth_append] at hl
    linarith
  · have hback := walk_relativizeAux2 h rf l
    rwa [reverse_reverse] at hback

/-! ## The directory of the base -/

def steps : Path → List Component → Bool
  | _, [] => true
  | d, .parent :: xs => d.basename.isName && steps d.dirname xs
  | d, x :: xs => steps (.concat d x) xs

theorem location_dirname {d : Path} (h : d.basename.isName = true) :
    d.dirname.location cwd = (d.location cwd).tail := by
  unfold Path.basename at h
  cases d with
  | root => rfl
  | single c | concat _ c =>
    cases c with
    | name s => rfl
    | _ => cases h

theorem location_systemDependentAbsolutePath {isDir : List String → Bool} {d : Path}
    (h : steps d cs = true ∨ isRegularDir isDir cwd d = false) :
    (systemDependentAbsolutePath (isRegularDir isDir cwd) d cs).location cwd =
      walk (d.location cwd) cs := by
  induction cs generalizing d with
  | nil => rfl
  | cons x xs ih =>
    rw [systemDependentAbsolutePath, walk_cons]
    split
    · next hx =>
      obtain ⟨rfl, hdir⟩ := hx
      rcases h with h | h
      · rw [steps, Bool.and_eq_true] at h
        rw [ih (.inl h.2), location_dirname h.1, go]
      · rw [hdir] at h
        cases h
    · next hx =>
      refine ih ?_
      cases hdir : isRegularDir isDir cwd d with
      | false => exact .inr (by rw [isRegularDir, hdir, Bool.false_and])
      | true =>
        rw [hdir] at h
        cases x with
        | parent => exact (hx ⟨rfl, hdir⟩).elim
        | _ => exact .inl (h.resolve_right Bool.noConfusion)

/-- The list of components leads from the base to the file if every `..` of the base, after the
part that it has in common with the file, undoes a name; for relative paths also only if. The path
that is built from the base leads there too if every `..` of the list is taken after a name or at
the root. -/
theorem relativizeFilename_location (base f : Path) (hkind : base.isRelative = f.isRelative) :
    (Undone base f → ∀ cwd,
      walk (base.location cwd) (relativizeFilename base f) = f.location cwd) ∧
    (base.isRelative = true →
      (∀ cwd, walk (base.location cwd) (relativizeFilename base f) = f.location cwd) →
        Undone base f) ∧
    (Undone base f → steps base (relativizeFilename base f) = true → ∀ isDir cwd,
      (systemDependentAbsolutePath (isRegularDir isDir cwd) base
        (relativizeFilename base f)).location cwd = f.location cwd) := by
  have hwalk : ∀ cwd, (walk (base.location cwd) (relativizeFilename base f) = f.location cwd ↔
      walk (if f.isRelative then cwd else []) (systemIndependentPathOfFile base ++
        relativizeFilename base f) =
          walk (if f.isRelative then cwd else []) (systemIndependentPathOfFile f)) := by
    intro cwd
    rw [base.location_eq, f.location_eq, walk_append, hkind]
  have hundone : Undone base f → ∀ cwd,
      walk (base.location cwd) (relativizeFilename base f) = f.location cwd :=
    fun h cwd => (hwalk cwd).mpr (walk_relativizeAux_iff.mpr h _)
  refine ⟨hundone, fun hrel h => walk_relativizeAux_iff.mp fun l => ?_, fun h hsteps isDir cwd => ?_⟩
  · have hl := (hwalk l).mp (h l)
    rwa [← hkind, if_pos hrel] at hl
  · rw [location_systemDependentAbsolutePath (.inl hsteps), hundone h]

theorem relativizeFilename_location_sibling :
    walk (Path.location ["w"] (.concat (.single (.name "a")) (.name "b"))) [.parent, .name "c"] =
      Path.location ["w"] (.concat (.single (.name "a")) (.name "c")) :=
  (relativizeFilename_location (.concat (.single (.name "a")) (.name "b"))
    (.concat (.single (.name "a")) (.name "c")) rfl).1 rfl ["w"]

/-- A `..` in front of the base is lost, and the path built from a base of one name does not lead
above the working directory. -/
theorem relativizeFilename_parent : walk (Path.location ["w"] (.single .parent))
        (relativizeFilename (.single .parent) (.single (.name "a"))) ≠
      Path.location ["w"] (.single (.name "a")) ∧
    (systemDependentAbsolutePath (isRegularDir (fun _ => true) ["w"]) (.single (.name "a"))
        (relativizeFilename (.single (.name "a")) (.concat (.single .parent) (.name "x")))).location
          ["w"] ≠ Path.location ["w"] (.concat (.single .parent) (.name "x")) := by
  decide

end Why3.Sysutil
