/-
# Where a repository's files are cached

A repository at a revision is given a directory of its own, under a name made of
its id and, unless it is the default branch, its revision. Whatever is found in
the directory is taken for the repository's own: a file that is there is not
fetched again, and converted weights that are there are loaded. So everything
rests on two repositories never having one directory.

A revision is joined as it is written, so its slashes make it a path and its two
dots lead out of where they stand. Directories are told apart by where their
paths lead; links between directories are left out.
-/

import BurnLm.Math.Paths

namespace BurnLm.Llama

open BurnLm.Math

/-- The default branch. -/
def mainBranch : Text := ['m', 'a', 'i', 'n']

/-- One model repository at one revision. -/
structure HfRepo where
  repoId : Text
  revision : Text
  deriving DecidableEq, Repr

namespace HfRepo

/-- A repository at its default branch. -/
def new (repoId : Text) : HfRepo := ⟨repoId, mainBranch⟩

def withRevision (repo : HfRepo) (revision : Text) : HfRepo := { repo with revision := revision }

/-- The slash of an id cannot go into a directory name. -/
def replaceSlash (text : Text) : Text :=
  text.flatMap fun char => if char = '/' then ['_', '_'] else [char]

/-- What a revision adds to the directory's name. -/
def mark (revision : Text) : Text := if revision = mainBranch then [] else '@' :: revision

def cacheDir (home : DirPath) (repo : HfRepo) : DirPath :=
  DirPath.join (home ++ [".cache".toList, "llama".toList, "hf".toList])
    (replaceSlash repo.repoId ++ mark repo.revision)

/-- The directory all repositories are cached below. -/
def hub (home : DirPath) : DirPath :=
  DirPath.resolve (home ++ [".cache".toList, "llama".toList, "hf".toList])

/-- The directory on disk that `cacheDir` leads to. -/
def directory (home : DirPath) (repo : HfRepo) : DirPath := DirPath.resolve (cacheDir home repo)

end HfRepo

/-- A repository id, `owner/name`. -/
structure RepoId where
  owner : Text
  name : Text
  owner_ne : owner ≠ []
  name_ne : name ≠ []
  slash_notMem_owner : '/' ∉ owner
  slash_notMem_name : '/' ∉ name

namespace RepoId

/-- The id as it is written. -/
def text (id : RepoId) : Text := id.owner ++ '/' :: id.name

/-- The directory's name, without a revision. -/
def dirName (id : RepoId) : Text := id.owner ++ '_' :: '_' :: id.name

theorem ext_parts {id other : RepoId} (howner : id.owner = other.owner)
    (hname : id.name = other.name) : id = other := by
  cases id
  cases other
  simp_all

theorem splitOn_text (id : RepoId) : id.text.splitOn '/' = [id.owner, id.name] := by
  rw [text, List.splitOn_append_cons_self_of_not_mem id.slash_notMem_owner,
    List.splitOn_eq_singleton id.slash_notMem_name]

theorem text_inj {id other : RepoId} (hsame : id.text = other.text) : id = other := by
  have hparts := congrArg (List.splitOn '/') hsame
  simp only [splitOn_text, List.cons.injEq, and_true] at hparts
  exact ext_parts hparts.1 hparts.2

theorem replaceSlash_text (id : RepoId) : HfRepo.replaceSlash id.text = id.dirName := by
  have hfixed {part : Text} (hpart : '/' ∉ part) : HfRepo.replaceSlash part = part := by
    induction part with
    | nil => rfl
    | cons char part ih =>
        rw [List.mem_cons, not_or] at hpart
        rw [HfRepo.replaceSlash, List.flatMap_cons, if_neg (Ne.symm hpart.1)]
        exact congrArg (char :: ·) (ih hpart.2)
  have happend (first second : Text) : HfRepo.replaceSlash (first ++ second) =
      HfRepo.replaceSlash first ++ HfRepo.replaceSlash second := List.flatMap_append
  have hslash (part : Text) : HfRepo.replaceSlash ('/' :: part) =
      '_' :: '_' :: HfRepo.replaceSlash part := rfl
  rw [text, happend, hslash, hfixed id.slash_notMem_owner, hfixed id.slash_notMem_name, dirName]

theorem slash_notMem_dirName (id : RepoId) : '/' ∉ id.dirName := by
  simp [dirName, id.slash_notMem_owner, id.slash_notMem_name]

/-- The repository at a revision. -/
def repo (id : RepoId) (revision : Text) : HfRepo := (HfRepo.new id.text).withRevision revision

/-- What the first segment of a revision adds to the directory's name. -/
def tag (revision : Text) : Text :=
  if revision = mainBranch then [] else '@' :: DirPath.segment revision

theorem segment_mark (revision : Text) : DirPath.segment (HfRepo.mark revision) = tag revision := by
  unfold HfRepo.mark tag
  by_cases hmain : revision = mainBranch
  · simp [hmain]
  · rw [if_neg hmain, if_neg hmain]
    exact @DirPath.segment_append ['@'] (by decide) revision

theorem below_mark (revision : Text) :
    DirPath.below (HfRepo.mark revision) = DirPath.below revision := by
  unfold HfRepo.mark
  by_cases hmain : revision = mainBranch
  · rw [if_pos hmain, hmain]
    decide
  · rw [if_neg hmain]
    exact @DirPath.below_append ['@'] (by decide) revision

/-- The directory of a repository at a revision: one component made of the id
and the revision's first segment, and below it the rest of the revision. -/
theorem cacheDir_repo (home : DirPath) (id : RepoId) (revision : Text) :
    HfRepo.cacheDir home (id.repo revision) =
      home ++ [".cache".toList, "llama".toList, "hf".toList] ++
        (id.dirName ++ tag revision) :: DirPath.below revision := by
  have hlong : 1 < (DirPath.segment (id.dirName ++ HfRepo.mark revision)).length := by
    rw [DirPath.segment_append id.slash_notMem_dirName]
    simp only [dirName, List.length_append, List.length_cons]
    omega
  have hrelative : (id.dirName ++ HfRepo.mark revision).head? ≠ some '/' := by
    intro hslash
    obtain ⟨char, owner, howner⟩ := List.exists_cons_of_ne_nil id.owner_ne
    rw [dirName, howner] at hslash
    simp only [List.cons_append, List.head?_cons, Option.some.injEq] at hslash
    exact id.slash_notMem_owner (by simp [howner, hslash])
  rw [HfRepo.cacheDir, repo, HfRepo.withRevision, HfRepo.new, replaceSlash_text, DirPath.join,
    if_neg hrelative, DirPath.ofText_eq_cons hlong, DirPath.segment_append id.slash_notMem_dirName,
    DirPath.below_append id.slash_notMem_dirName, segment_mark, below_mark]

/-- Where the rest of a revision leads, from below its first segment. -/
def turns (revision : Text) : DirPath.Walk := DirPath.walk (DirPath.below revision)

/-- The component of a repository at a revision. -/
def component (id : RepoId) (revision : Text) : Text := id.dirName ++ tag revision

/-- From its component, a repository's directory is where its revision leads. -/
theorem directory_repo (home : DirPath) (id : RepoId) (revision : Text) :
    HfRepo.directory home (id.repo revision) =
      DirPath.above (HfRepo.hub home ++ [id.component revision]) (turns revision).up ++
        (turns revision).down := by
  have hdots : id.component revision ≠ ['.', '.'] := by
    intro hsame
    have hunder : '_' ∈ id.component revision := by simp [component, dirName]
    rw [hsame] at hunder
    exact absurd hunder (by decide)
  have hcomponent : DirPath.resolve (home ++ [".cache".toList, "llama".toList, "hf".toList] ++
      [id.component revision]) = HfRepo.hub home ++ [id.component revision] := by
    rw [DirPath.resolve, List.foldl_append, List.foldl_cons, List.foldl_nil, DirPath.enter,
      if_neg hdots]
    rfl
  rw [HfRepo.directory, cacheDir_repo, ← component, ← List.singleton_append (l := DirPath.below _),
    ← List.append_assoc, DirPath.resolve_append, hcomponent]
  rfl

/-! ## Confused repositories -/

/-- One repository's name and first segment of its revision read as the other's. -/
inductive Confused (id : RepoId) (revision : Text) (other : RepoId) (otherRevision : Text) : Prop
  /-- One revision, written with other slashes and dots. -/
  | respelled (hid : id = other) (hpinned : revision ≠ mainBranch)
      (hother : otherRevision ≠ mainBranch) (hne : revision ≠ otherRevision)
      (hsegment : DirPath.segment revision = DirPath.segment otherRevision)
  /-- The other name has an `@` of its own, and goes on as the revision does. -/
  | marked (word : Text) (howner : id.owner = other.owner)
      (hname : other.name = id.name ++ '@' :: word) (hpinned : revision ≠ mainBranch)
      (hsegment : DirPath.segment revision = word ++ tag otherRevision)
  /-- The other owner has the separator's characters, and goes on as the name
  does. -/
  | shifted (hshifted : Shifted '_' id.owner (id.name ++ tag revision)
      other.owner (other.name ++ tag otherRevision))

theorem tag_eq_nil_iff {revision : Text} : tag revision = [] ↔ revision = mainBranch := by
  unfold tag
  split <;> simp_all

theorem tag_of_pinned {revision : Text} (hpinned : revision ≠ mainBranch) :
    tag revision = '@' :: DirPath.segment revision := if_neg hpinned

/-- Names followed by the marks of their revisions are the same only if the
longer name's own `@` is taken for the mark, or the revisions are one. -/
theorem confused_of_name_append {id other : RepoId} {revision otherRevision word : Text}
    (hne : id.repo revision ≠ other.repo otherRevision) (howner : id.owner = other.owner)
    (hname : other.name = id.name ++ word) (htag : tag revision = word ++ tag otherRevision) :
    Confused id revision other otherRevision := by
  have hpinned : revision ≠ mainBranch := by
    intro hmain
    rw [tag_eq_nil_iff.mpr hmain] at htag
    obtain ⟨rfl, hother⟩ := List.append_eq_nil_iff.mp htag.symm
    refine hne ?_
    rw [ext_parts howner (by simpa using hname.symm), hmain, tag_eq_nil_iff.mp hother]
  cases word with
  | nil =>
      have hid : id = other := ext_parts howner (by simpa using hname.symm)
      have hother : otherRevision ≠ mainBranch := fun hother =>
        hpinned (tag_eq_nil_iff.mp (htag.trans (tag_eq_nil_iff.mpr hother)))
      rw [List.nil_append, tag_of_pinned hpinned, tag_of_pinned hother] at htag
      exact .respelled hid hpinned hother (fun hsame => hne (by rw [hid, hsame]))
        (List.cons.inj htag).2
  | cons char word =>
      rw [tag_of_pinned hpinned] at htag
      obtain ⟨rfl, hsegment⟩ := List.cons.inj htag
      exact .marked word howner hname hpinned hsegment

/-- Confused repositories differ, and their directories begin the same. -/
theorem Confused.spec {id other : RepoId} {revision otherRevision : Text}
    (hconfused : Confused id revision other otherRevision) :
    id.repo revision ≠ other.repo otherRevision ∧
      id.dirName ++ tag revision = other.dirName ++ tag otherRevision := by
  have hids (hsame : id.repo revision = other.repo otherRevision) : id = other :=
    text_inj (congrArg HfRepo.repoId hsame)
  cases hconfused with
  | respelled hid hpinned hother hne hsegment =>
      refine ⟨fun hsame => hne (congrArg HfRepo.revision hsame), ?_⟩
      rw [hid, tag_of_pinned hpinned, tag_of_pinned hother, hsegment]
  | marked word howner hname hpinned hsegment =>
      constructor
      · intro hsame
        have hlength := congrArg List.length hname
        rw [hids hsame] at hlength
        simp at hlength
      · rw [dirName, dirName, howner, hname, tag_of_pinned hpinned, hsegment]
        simp
  | shifted hshifted =>
      constructor
      · intro hsame
        have hlength := hshifted.length_lt
        rw [hids hsame] at hlength
        exact lt_irrefl _ hlength
      · simpa [dirName] using hshifted.append_eq

/-- Two repositories with one component are confused. -/
theorem confused_of_component_eq {id other : RepoId} {revision otherRevision : Text}
    (hne : id.repo revision ≠ other.repo otherRevision)
    (hsame : id.component revision = other.component otherRevision) :
    Confused id revision other otherRevision ∨ Confused other otherRevision id revision := by
  rw [component, component, dirName, dirName, List.append_assoc, List.append_assoc] at hsame
  rcases append_doubled_eq_iff.mp hsame with ⟨howner, hrest⟩ | hshifted | hshifted
  · rcases List.append_eq_append_iff.mp hrest with ⟨word, hname, htag⟩ | ⟨word, hname, htag⟩
    · exact Or.inl (confused_of_name_append hne howner hname htag)
    · exact Or.inr (confused_of_name_append hne.symm howner.symm hname htag)
  · exact Or.inl (.shifted hshifted)
  · exact Or.inr (.shifted hshifted)

/-! ## Revisions that lead elsewhere -/

/-- The other revision leads out of its own component and comes down to where the
first one leads: through the first's component, or, if that one leads out too, by
the directories between the two turns. -/
inductive Meets (home : DirPath) (id : RepoId) (revision otherRevision : Text) : Prop
  | within (up : ℕ) (hstays : (turns revision).up = 0) (hclimbs : (turns otherRevision).up = up + 1)
      (hdown : (turns otherRevision).down = DirPath.between (HfRepo.hub home) 0 up ++
        id.component revision :: (turns revision).down)
  | outside (low high : ℕ) (hclimbs : (turns revision).up = low + 1)
      (hother : (turns otherRevision).up = high + 1) (hle : low ≤ high)
      (hdown : (turns otherRevision).down = DirPath.between (HfRepo.hub home) low high ++
        (turns revision).down)

/-- Two ways stay below their components: one directory is one component and one
way down. -/
theorem directory_eq_iff_of_stays {home : DirPath} {id other : RepoId}
    {revision otherRevision : Text} (hstays : (turns revision).up = 0)
    (hother : (turns otherRevision).up = 0) :
    HfRepo.directory home (id.repo revision) = HfRepo.directory home (other.repo otherRevision) ↔
      id.component revision = other.component otherRevision ∧
        (turns revision).down = (turns otherRevision).down := by
  rw [directory_repo, directory_repo, hstays, hother, DirPath.above_zero, DirPath.above_zero,
    List.append_assoc, List.append_assoc, List.append_cancel_left_eq, List.singleton_append,
    List.singleton_append, List.cons.injEq]

/-- One stays, the other climbs. -/
theorem directory_eq_iff_of_within {home : DirPath} {id other : RepoId}
    {revision otherRevision : Text} {up : ℕ} (hstays : (turns revision).up = 0)
    (hclimbs : (turns otherRevision).up = up + 1) :
    HfRepo.directory home (id.repo revision) = HfRepo.directory home (other.repo otherRevision) ↔
      Meets home id revision otherRevision := by
  have hplace : HfRepo.directory home (id.repo revision) =
      DirPath.above (HfRepo.hub home) 0 ++ id.component revision :: (turns revision).down := by
    rw [directory_repo, hstays, DirPath.above_zero, DirPath.above_zero, List.append_assoc,
      List.singleton_append]
  rw [hplace, directory_repo, hclimbs, DirPath.above_concat_succ,
    DirPath.above_append_eq_iff (Nat.zero_le up)]
  constructor
  · exact .within up hstays hclimbs
  · rintro (⟨other, _, hother, hdown⟩ | ⟨low, _, hlow, _, _, _⟩)
    · obtain rfl : up = other := Nat.succ.inj (hclimbs.symm.trans hother)
      exact hdown
    · simp [hstays] at hlow

/-- Both climb, one no higher than the other. -/
theorem directory_eq_iff_of_outside {home : DirPath} {id other : RepoId}
    {revision otherRevision : Text} {low high : ℕ} (hclimbs : (turns revision).up = low + 1)
    (hother : (turns otherRevision).up = high + 1) (hle : low ≤ high) :
    HfRepo.directory home (id.repo revision) = HfRepo.directory home (other.repo otherRevision) ↔
      Meets home id revision otherRevision := by
  rw [directory_repo, directory_repo, hclimbs, hother, DirPath.above_concat_succ,
    DirPath.above_concat_succ, DirPath.above_append_eq_iff hle]
  constructor
  · exact .outside low high hclimbs hother hle
  · rintro (⟨_, hstays, _, _⟩ | ⟨low', high', hlow, hhigh, _, hdown⟩)
    · simp [hclimbs] at hstays
    · obtain rfl : low = low' := Nat.succ.inj (hclimbs.symm.trans hlow)
      obtain rfl : high = high' := Nat.succ.inj (hother.symm.trans hhigh)
      exact hdown

/-- Two repositories with one directory: confused, with one way down from their
component, or meeting outside it. -/
inductive Clash (home : DirPath) (id : RepoId) (revision : Text) (other : RepoId)
    (otherRevision : Text) : Prop
  | inside (hstays : (turns revision).up = 0) (hother : (turns otherRevision).up = 0)
      (hdown : (turns revision).down = (turns otherRevision).down)
      (hconfused : Confused id revision other otherRevision ∨
        Confused other otherRevision id revision)
  | elsewhere (hne : id.repo revision ≠ other.repo otherRevision)
      (hmeets : Meets home id revision otherRevision ∨ Meets home other otherRevision revision)

theorem Meets.directory_eq {home : DirPath} {id : RepoId} {revision otherRevision : Text}
    (hmeets : Meets home id revision otherRevision) (other : RepoId) :
    HfRepo.directory home (id.repo revision) =
      HfRepo.directory home (other.repo otherRevision) := by
  cases hmeets with
  | within up hstays hclimbs hdown =>
      exact (directory_eq_iff_of_within hstays hclimbs).mpr (.within up hstays hclimbs hdown)
  | outside low high hclimbs hother hle hdown =>
      exact (directory_eq_iff_of_outside hclimbs hother hle).mpr
        (.outside low high hclimbs hother hle hdown)

/-- Two different repositories have one directory exactly if they clash. -/
theorem clash_iff {home : DirPath} {id other : RepoId} {revision otherRevision : Text} :
    Clash home id revision other otherRevision ↔ id.repo revision ≠ other.repo otherRevision ∧
      HfRepo.directory home (id.repo revision) =
        HfRepo.directory home (other.repo otherRevision) := by
  constructor
  · rintro (⟨hstays, hother, hdown, hconfused⟩ | ⟨hne, hmeets | hmeets⟩)
    · rw [directory_eq_iff_of_stays hstays hother]
      rcases hconfused with hconfused | hconfused
      · exact ⟨hconfused.spec.1, hconfused.spec.2, hdown⟩
      · exact ⟨hconfused.spec.1.symm, hconfused.spec.2.symm, hdown⟩
    · exact ⟨hne, hmeets.directory_eq other⟩
    · exact ⟨hne, (hmeets.directory_eq id).symm⟩
  · rintro ⟨hne, hsame⟩
    cases hup : (turns revision).up with
    | zero =>
        cases hother : (turns otherRevision).up with
        | zero =>
            obtain ⟨hcomponent, hdown⟩ := (directory_eq_iff_of_stays hup hother).mp hsame
            exact .inside hup hother hdown (confused_of_component_eq hne hcomponent)
        | succ high =>
            exact .elsewhere hne (Or.inl ((directory_eq_iff_of_within hup hother).mp hsame))
    | succ low =>
        cases hother : (turns otherRevision).up with
        | zero =>
            exact .elsewhere hne (Or.inr ((directory_eq_iff_of_within hother hup).mp hsame.symm))
        | succ high =>
            refine .elsewhere hne ?_
            rcases Nat.le_total low high with hle | hle
            · exact Or.inl ((directory_eq_iff_of_outside hup hother hle).mp hsame)
            · exact Or.inr ((directory_eq_iff_of_outside hother hup hle).mp hsame.symm)

/-- **Two repositories share a directory exactly if they clash.** Two that differ
in id or revision are cached apart, except where an owner's own underscores are
taken for the separator, a name's own `@` for the mark of a revision, the
revisions are one path written in two ways, or a revision leads out of its
component and into the other's directory. -/
theorem directory_ne_iff (home : DirPath) (id other : RepoId) (revision otherRevision : Text) :
    (id.repo revision ≠ other.repo otherRevision →
      HfRepo.directory home (id.repo revision) ≠
        HfRepo.directory home (other.repo otherRevision)) ↔
      ¬ Clash home id revision other otherRevision := by
  rw [clash_iff]
  tauto

/-- `a/b__c`. -/
def underscoredName : RepoId :=
  ⟨['a'], "b__c".toList, by decide, by decide, by decide, by decide⟩

/-- `a__b/c`. -/
def underscoredOwner : RepoId :=
  ⟨"a__b".toList, ['c'], by decide, by decide, by decide, by decide⟩

/-- Two repositories with one directory: the second's files are taken from the
first. -/
theorem directory_underscored :
    underscoredName.repo mainBranch ≠ underscoredOwner.repo mainBranch ∧
      HfRepo.directory ["root".toList] (underscoredName.repo mainBranch) =
        HfRepo.directory ["root".toList] (underscoredOwner.repo mainBranch) := by
  constructor
  · decide
  · rw [directory_repo, directory_repo]
    rfl

/-- A revision that leads out of its own component and into another's. -/
example :
    HfRepo.directory ["root".toList] (RepoId.repo
        ⟨['a'], ['b'], by decide, by decide, by decide, by decide⟩ "x/../c__d".toList) =
      HfRepo.directory ["root".toList] (RepoId.repo
        ⟨['c'], ['d'], by decide, by decide, by decide, by decide⟩ mainBranch) := by
  rw [directory_repo, directory_repo]
  rfl

end RepoId

end BurnLm.Llama
