import Mathlib.Data.List.DropRight

/-!
# Paths in a tree of directories

A path is a text in which slashes stand between names. It is followed from the root if it
begins with a slash, else from the working directory, one entry at a time; `.` and `..`
are entries like the others.

* `locate_eq_some_iff`: what place a path names.
* `namesEntryOf_plain`: a name without a slash is an entry of the working directory.
* `leadsBack_iff`: when `..` leads from the directory a path names back to the working
  directory, read off the path; `undone_iff_namesEntryOf` for a path that ends in a name.
-/

namespace Paths

variable {α δ : Type*} [DecidableEq α]

/-- A tree of directories: `entry d name` is the directory that the entry `name` of `d`
    leads to, `none` if there is none or it cannot be entered. Paths from the length
    `pathMax` on are refused. -/
structure Tree (α δ : Type*) where
  slash : α
  dot : α
  slash_ne_dot : slash ≠ dot
  pathMax : ℕ
  two_lt : 2 < pathMax
  root : δ
  entry : δ → List α → Option δ

/-- The names of a path. -/
def components (slash : α) (path : List α) : List (List α) :=
  (path.splitOn slash).filter (· ≠ [])

/-- The path up to its last slash. -/
def parent (slash : α) (path : List α) : List α := path.rdropWhile (· ≠ slash)

/-- The last name of a path: what stands behind its last slash. -/
def base (slash : α) (path : List α) : List α := path.rtakeWhile (· ≠ slash)

namespace Tree

variable (T : Tree α δ)

/-- A name of an entry other than `.` and `..`. -/
def IsName (name : List α) : Prop := name ≠ [] ∧ name ≠ [T.dot] ∧ name ≠ [T.dot, T.dot]

instance (name : List α) : Decidable (T.IsName name) := by
  unfold IsName; infer_instance

/-- Where a path starts. -/
def start (cwd : δ) (path : List α) : δ := if path.head? = some T.slash then T.root else cwd

/-- The directory that a sequence of names leads to. -/
def walk (d : δ) (names : List (List α)) : Option δ := names.foldlM T.entry d

/-- The directory a path names, from the working directory `cwd`; the empty path names none. -/
def resolve (cwd : δ) (path : List α) : Option δ :=
  if path = [] ∨ T.pathMax ≤ path.length then none
  else T.walk (T.start cwd path) (components T.slash path)

/-- The place a path names: a directory and the name of an entry of it, which need not
    exist. -/
def locate (cwd : δ) (path : List α) : Option (δ × List α) :=
  if T.IsName (base T.slash path) ∧ path.length < T.pathMax then
    (T.walk (T.start cwd path) (components T.slash (parent T.slash path))).map
      fun d => (d, base T.slash path)
  else none

/-- The path names an entry of the directory `d`: it ends in a name, and what stands before
    the name leads to `d`. -/
structure NamesEntryOf (cwd d : δ) (path : List α) : Prop where
  isName : T.IsName (base T.slash path)
  length_lt : path.length < T.pathMax
  leads : T.walk (T.start cwd path) (components T.slash (parent T.slash path)) = some d

instance [DecidableEq δ] (cwd d : δ) (path : List α) : Decidable (T.NamesEntryOf cwd d path) :=
  decidable_of_iff (T.IsName (base T.slash path) ∧ path.length < T.pathMax ∧
      T.walk (T.start cwd path) (components T.slash (parent T.slash path)) = some d)
    ⟨fun h => ⟨h.1, h.2.1, h.2.2⟩, fun h => ⟨h.isName, h.length_lt, h.leads⟩⟩

/-- Where `..` leads; a directory that cannot be left this way is not. -/
def up (d : δ) : δ := (T.entry d [T.dot, T.dot]).getD d

/-- The path can only be entered where one is already. -/
def Stays (cwd : δ) (path : List α) : Prop := ∀ d, T.resolve cwd path = some d → d = cwd

/-- When the path has been entered, if it can be, `..` leads to `cwd`. -/
def LeadsBack (cwd : δ) (path : List α) : Prop :=
  match T.resolve cwd path with
  | some d => T.up d = cwd
  | none => T.up cwd = cwd

/-- A tree without links: `.` leads nowhere else, `..` leads back from the directory an entry
    leads to, and it leads up to the root and not beyond. -/
structure Lawful : Prop where
  self : ∀ {d e}, T.entry d [T.dot] = some e → e = d
  parent : ∀ {d name e}, T.IsName name → T.entry d name = some e →
    T.entry e [T.dot, T.dot] = some d
  root : T.up T.root = T.root
  climbs : ∃ depth : δ → ℕ, ∀ d, T.up d = d ∨ depth (T.up d) < depth d

/-- The names in front of the last one that is entered and not left again, for names in
    reverse and `k` further names `..` behind them. -/
def front : ℕ → List (List α) → Option (List (List α))
  | _, [] => none
  | k, name :: names =>
    if name = [T.dot] then front k names
    else if name = [T.dot, T.dot] then front (k + 1) names
    else match k with
      | 0 => some names.reverse
      | k + 1 => front k names

/-- The names of the path in front of the last one that is entered and not left again; none
    if the path only climbs. -/
def ahead (path : List α) : Option (List (List α)) :=
  T.front 0 (components T.slash path).reverse

/-- What the path says about `..`: it can be entered, and in front of the last name that is
    not left again it leads to `cwd`; or `cwd` is at the top, and the path cannot be entered
    or only climbs from there. -/
def Undone (cwd : δ) (path : List α) : Prop :=
  (T.resolve cwd path).isSome ∧
      (∃ names, T.ahead path = some names ∧ T.walk (T.start cwd path) names = some cwd) ∨
    T.up cwd = cwd ∧
      (T.resolve cwd path = none ∨ T.ahead path = none ∧ T.start cwd path = cwd)

variable {T} {cwd d : δ} {path name : List α}

theorem locate_eq_some_iff :
    T.locate cwd path = some (d, name) ↔ T.NamesEntryOf cwd d path ∧ name = base T.slash path := by
  unfold locate
  constructor
  · intro h
    split at h
    · rename_i hname
      obtain ⟨e, he, heq⟩ := Option.map_eq_some_iff.mp h
      obtain ⟨rfl, rfl⟩ := Prod.mk.inj heq
      exact ⟨⟨hname.1, hname.2, he⟩, rfl⟩
    · cases h
  · rintro ⟨h, rfl⟩
    rw [if_pos ⟨h.isName, h.length_lt⟩, h.leads]
    rfl

omit [DecidableEq α] in
theorem walk_append {names names' : List (List α)} :
    T.walk d (names ++ names') = (T.walk d names).bind fun e => T.walk e names' :=
  List.foldlM_append

omit [DecidableEq α] in
theorem walk_singleton : T.walk d [name] = T.entry d name := by
  show (T.entry d name >>= fun e => some e) = _
  exact bind_pure _

/-- `..` names what the entry of the working directory leads to. -/
theorem resolve_dots : T.resolve cwd [T.dot, T.dot] = T.entry cwd [T.dot, T.dot] := by
  have hslash : T.slash ∉ [T.dot, T.dot] := by simp [T.slash_ne_dot]
  have hstart : T.start cwd [T.dot, T.dot] = cwd :=
    if_neg fun h => T.slash_ne_dot (Option.some.inj h).symm
  have hnames : components T.slash [T.dot, T.dot] = [[T.dot, T.dot]] := by
    rw [components, List.splitOn_eq_singleton hslash]
    rfl
  have hshort : ¬ ([T.dot, T.dot] = [] ∨ T.pathMax ≤ [T.dot, T.dot].length) := by
    simpa using T.two_lt
  rw [resolve, if_neg hshort, hstart, hnames, walk_singleton]

/-! ## The last name -/

theorem base_plain {slash : α} (h : slash ∉ path) : base slash path = path := by
  refine List.rtakeWhile_eq_self_iff.mpr fun x hx => ?_
  simp only [ne_eq, decide_not, Bool.not_eq_true', decide_eq_false_iff_not]
  rintro rfl
  exact h hx

theorem parent_plain {slash : α} (h : slash ∉ path) : parent slash path = [] := by
  refine List.rdropWhile_eq_nil_iff.mpr fun x hx => ?_
  simp only [ne_eq, decide_not, Bool.not_eq_true', decide_eq_false_iff_not]
  rintro rfl
  exact h hx

/-- A name without a slash is an entry of the working directory. -/
theorem namesEntryOf_plain (h : T.slash ∉ path) :
    T.NamesEntryOf cwd d path ↔ T.IsName path ∧ path.length < T.pathMax ∧ d = cwd := by
  have hstart : T.start cwd path = cwd := by
    refine if_neg fun hhead => h ?_
    exact List.mem_of_mem_head? hhead
  constructor
  · intro hd
    have hname := hd.isName
    have hleads := hd.leads
    rw [base_plain h] at hname
    rw [parent_plain h, hstart] at hleads
    exact ⟨hname, hd.length_lt, (Option.some.inj hleads).symm⟩
  · rintro ⟨hname, hlt, rfl⟩
    refine ⟨by rwa [base_plain h], hlt, ?_⟩
    rw [parent_plain h, hstart]
    rfl

/-- A path is cut behind its last slash. -/
theorem parent_base_append {slash : α} (path : List α) {name : List α} (h : slash ∉ name) :
    parent slash (path ++ slash :: name) = path ++ [slash] ∧
      base slash (path ++ slash :: name) = name := by
  have hname : ∀ x ∈ name.reverse, decide (x ≠ slash) = true := by
    intro x hx
    rw [decide_eq_true_iff]
    rintro rfl
    exact h (List.mem_reverse.mp hx)
  have hrev : (path ++ slash :: name).reverse = name.reverse ++ slash :: path.reverse := by simp
  constructor
  · rw [parent, List.rdropWhile, hrev, List.dropWhile_append_of_pos hname,
      List.dropWhile_cons_of_neg (by simp)]
    simp
  · rw [base, List.rtakeWhile, hrev, List.takeWhile_append_of_pos hname,
      List.takeWhile_cons_of_neg (by simp)]
    simp

/-- A path that ends in a name consists of the names in front of it and that name. -/
theorem components_eq {slash : α} (h : base slash path ≠ []) :
    components slash path = components slash (parent slash path) ++ [base slash path] := by
  by_cases hslash : slash ∈ path
  · obtain ⟨name, front, hrev, hname⟩ := List.eq_append_cons_of_mem (List.mem_reverse.mpr hslash)
    have hpath : path = front.reverse ++ slash :: name.reverse := by
      rw [← List.reverse_reverse path, hrev]
      simp
    have hname' : slash ∉ name.reverse := fun hmem => hname (List.mem_reverse.mp hmem)
    obtain ⟨hparent, hbase⟩ := parent_base_append front.reverse hname'
    rw [← hpath] at hparent hbase
    rw [hbase] at h
    rw [hparent, hbase, hpath, components, components, List.splitOn_append_cons_self,
      List.splitOn_append_cons_self, List.splitOn_eq_singleton hname', List.splitOn_nil]
    simp [h]
  · rw [base_plain hslash] at h
    rw [base_plain hslash, parent_plain hslash, components, components,
      List.splitOn_eq_singleton hslash, List.splitOn_nil]
    simp [h]

/-! ## Back by `..` -/

section

omit [DecidableEq α]

variable {s e : δ} {k : ℕ}

theorem up_of_entry (h : T.entry d [T.dot, T.dot] = some e) : T.up d = e := by
  rw [up, h]
  rfl

/-- From the top `..` leads nowhere. -/
theorem eq_of_climb (h : T.up s = s)
    (hd : T.walk s (List.replicate k [T.dot, T.dot]) = some d) : d = s := by
  induction k with
  | zero => exact (Option.some.inj hd).symm
  | succ k ih =>
    obtain ⟨u, hu, hrest⟩ := Option.bind_eq_some_iff.mp hd
    obtain rfl : s = u := h.symm.trans (up_of_entry hu)
    exact ih hrest

/-- A climb that ends where it has started was at the top. -/
theorem Lawful.up_eq_of_climb (hT : T.Lawful)
    (h : T.walk d (List.replicate (k + 1) [T.dot, T.dot]) = some d) : T.up d = d := by
  obtain ⟨depth, hdepth⟩ := hT.climbs
  have hle : ∀ {k d e}, T.walk d (List.replicate k [T.dot, T.dot]) = some e →
      depth e ≤ depth d := by
    intro k
    induction k with
    | zero =>
      intro d e h
      rw [Option.some.inj h]
    | succ k ih =>
      intro d e h
      obtain ⟨u, hu, hrest⟩ := Option.bind_eq_some_iff.mp h
      have hrest' := ih hrest
      rcases hdepth d with h' | h' <;> rw [up_of_entry hu] at h'
      · rwa [h'] at hrest'
      · omega
  obtain ⟨u, hu, hrest⟩ := Option.bind_eq_some_iff.mp h
  rcases hdepth d with h' | h'
  · exact h'
  · rw [up_of_entry hu] at h'
    exact absurd (hle hrest) (Nat.not_le.mpr h')

end

/-- Where `..` leads from the place that is `k` names `..` behind the directory the names lead
    to: to the names in front; if there are none, the place lies above the start. -/
theorem Lawful.front_spec (hT : T.Lawful) {s e : δ} (names : List (List α)) {k : ℕ}
    (hne : ∀ name ∈ names, name ≠ []) (hd : T.walk s names.reverse = some d)
    (he : T.walk d (List.replicate k [T.dot, T.dot]) = some e) :
    (∀ front, T.front k names = some front → T.walk s front = some (T.up e)) ∧
      (T.front k names = none → ∃ m, T.walk s (List.replicate m [T.dot, T.dot]) = some e) := by
  induction names generalizing k d with
  | nil =>
    obtain rfl := Option.some.inj hd
    refine ⟨fun front h => ?_, fun _ => ⟨k, he⟩⟩
    cases h
  | cons name names ih =>
    rw [List.reverse_cons, walk_append] at hd
    obtain ⟨d', hd', hlast⟩ := Option.bind_eq_some_iff.mp hd
    rw [walk_singleton] at hlast
    have hne' : ∀ name ∈ names, name ≠ [] := fun n hn => hne n (List.mem_cons_of_mem _ hn)
    unfold Tree.front
    by_cases hdot : name = [T.dot]
    · subst hdot
      rw [if_pos rfl]
      exact ih hne' hd' (hT.self hlast ▸ he)
    · rw [if_neg hdot]
      by_cases hdots : name = [T.dot, T.dot]
      · subst hdots
        rw [if_pos rfl]
        refine ih hne' hd' ?_
        rw [List.replicate_succ]
        exact Option.bind_eq_some_iff.mpr ⟨d, hlast, he⟩
      · rw [if_neg hdots]
        have hback := hT.parent ⟨hne name List.mem_cons_self, hdot, hdots⟩ hlast
        cases k with
        | zero =>
          obtain rfl := Option.some.inj he
          constructor
          · intro front hfront
            obtain rfl := Option.some.inj hfront
            rw [hd', up_of_entry hback]
          · intro h
            cases h
        | succ k =>
          -- The first of the names `..` leaves the directory again.
          rw [List.replicate_succ] at he
          obtain ⟨d'', hd'', he⟩ := Option.bind_eq_some_iff.mp he
          obtain rfl := Option.some.inj (hback.symm.trans hd'')
          exact ih hne' hd' he

theorem ne_nil_of_mem_components {slash : α} (h : name ∈ components slash path) : name ≠ [] :=
  of_decide_eq_true (List.mem_filter.mp h).2

/-- In a tree without links the path says where `..` leads from the directory it names. -/
theorem Lawful.leadsBack_iff (hT : T.Lawful) : T.LeadsBack cwd path ↔ T.Undone cwd path := by
  unfold LeadsBack Undone
  cases hres : T.resolve cwd path with
  | none => simp
  | some d =>
    have hwalk : T.walk (T.start cwd path) (components T.slash path).reverse.reverse =
        some d := by
      rw [List.reverse_reverse]
      unfold resolve at hres
      split at hres
      · cases hres
      · exact hres
    obtain ⟨hsome, hnone⟩ := hT.front_spec (k := 0) _
      (fun _ hname => ne_nil_of_mem_components (List.mem_reverse.mp hname)) hwalk rfl
    cases hahead : T.ahead path with
    | some names => simp [hsome names hahead]
    | none =>
      obtain ⟨m, hm⟩ := hnone hahead
      have hstart : T.start cwd path = T.root ∨ T.start cwd path = cwd := by
        unfold start
        exact ite_eq_or_eq _ _ _
      have hiff : T.up d = cwd ↔ T.up cwd = cwd ∧ T.start cwd path = cwd := by
        constructor
        · intro hup
          rcases hstart with hroot | hcwd
          · rw [hroot] at hm
            obtain rfl := eq_of_climb hT.root hm
            obtain rfl : T.root = cwd := hT.root.symm.trans hup
            exact ⟨hup, hroot⟩
          · rw [hcwd] at hm
            refine ⟨?_, hcwd⟩
            cases hdots : T.entry d [T.dot, T.dot] with
            | none =>
              obtain rfl : d = cwd := by
                rw [← hup, up, hdots]
                rfl
              exact hup
            | some u =>
              obtain rfl : u = cwd := (up_of_entry hdots).symm.trans hup
              refine hT.up_eq_of_climb (k := m) ?_
              rw [List.replicate_succ', walk_append, hm]
              exact walk_singleton.trans hdots
        · rintro ⟨hup, hcwd⟩
          rw [hcwd] at hm
          rw [eq_of_climb hup hm, hup]
      simpa using hiff

/-- A path that ends in a name and can be entered is undone where it names an entry of the
    working directory. -/
theorem undone_iff_namesEntryOf (hname : T.IsName (base T.slash path))
    (hd : T.resolve cwd path = some d) : T.Undone cwd path ↔ T.NamesEntryOf cwd cwd path := by
  have hlt : path.length < T.pathMax := by
    unfold resolve at hd
    split at hd
    · cases hd
    · rename_i hlen
      exact Nat.lt_of_not_le fun hle => hlen (.inr hle)
  have hahead : T.ahead path = some (components T.slash (parent T.slash path)) := by
    rw [ahead, components_eq hname.1, List.reverse_append, List.reverse_singleton,
      List.singleton_append, front, if_neg hname.2.1, if_neg hname.2.2, List.reverse_reverse]
  rw [Undone, hahead, hd]
  constructor
  · rintro (⟨-, names, hnames, hleads⟩ | ⟨-, hnone | ⟨hnone, -⟩⟩)
    · exact ⟨hname, hlt, Option.some.inj hnames ▸ hleads⟩
    · cases hnone
    · cases hnone
  · exact fun h => .inl ⟨rfl, _, rfl, h.leads⟩

end Tree

end Paths
