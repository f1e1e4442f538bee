import Mathlib.Data.Fintype.EquivFin
import Mathlib.Data.Fintype.Lattice
import Mathlib.Logic.Function.Basic

/-! # Single tasks between barriers

The members of a team go through rounds. In a round a member enters a barrier, the first one
behind it does a task, and then all of them enter another barrier. A barrier lets a member
through when all members have entered it. While a member does the task no other member is
outside of a round or behind its second barrier (`Math.SingleRounds.Sound.not_elected`), who is
behind the second barrier comes after the task of the round
(`Math.SingleRounds.Sound.finished_of_behind`), and members are only held up by members that do
not take part (`Math.SingleRounds.Sound.held_up`).
-/

namespace Math.SingleRounds

/-- Where a member is in its round. -/
inductive Stage
  | outside
  | first
  | single
  | elected
  | second
  | behind
  deriving DecidableEq

structure Member where
  round : ℕ
  stage : Stage

/-- The number of barriers that a member has entered. -/
def Member.entered (member : Member) : ℕ :=
  2 * member.round +
    match member.stage with
    | .outside => 0
    | .first | .single | .elected => 1
    | .second | .behind => 2

/-- How many tasks were taken on, and how many are done. -/
structure Team (ι : Type*) where
  member : ι → Member
  claimed : ℕ
  finished : ℕ

variable {ι : Type*}

namespace Team

def initial : Team ι := ⟨fun _ => ⟨0, .outside⟩, 0, 0⟩

/-- A barrier lets a member through. -/
def Released (team : Team ι) (i : ι) : Prop :=
  ∀ other, (team.member i).entered ≤ (team.member other).entered

instance instDecidableReleased [Fintype ι] (team : Team ι) (i : ι) : Decidable (team.Released i) :=
  inferInstanceAs (Decidable (∀ _, _))

variable [DecidableEq ι]

def goTo (team : Team ι) (i : ι) (stage : Stage) : Team ι :=
  { team with member := Function.update team.member i ⟨(team.member i).round, stage⟩ }

/-- The next step of a member, if nothing holds it up. -/
def advance [Fintype ι] (team : Team ι) (i : ι) : Option (Team ι) :=
  match (team.member i).stage with
  | .outside => some (team.goTo i .first)
  | .first => if team.Released i then some (team.goTo i .single) else none
  | .single =>
      if (team.member i).round = team.claimed then
        some ({ team with claimed := team.claimed + 1 }.goTo i .elected)
      else some (team.goTo i .second)
  | .elected => some ({ team with finished := team.finished + 1 }.goTo i .second)
  | .second => if team.Released i then some (team.goTo i .behind) else none
  | .behind =>
      some { team with
        member := Function.update team.member i ⟨(team.member i).round + 1, .outside⟩ }

end Team

/-- What a member knows about the tasks. -/
def Member.Fits (claimed finished : ℕ) (member : Member) : Prop :=
  match member.stage with
  | .outside => finished = member.round ∧ claimed = member.round
  | .first | .single =>
      member.round ≤ finished ∧ finished ≤ claimed ∧ claimed ≤ member.round + 1
  | .elected => finished = member.round ∧ claimed = member.round + 1
  | .second => member.round ≤ finished ∧ finished ≤ claimed ∧ claimed = member.round + 1
  | .behind => finished = member.round + 1 ∧ claimed = member.round + 1

namespace Member.Fits

variable {member : Member} {claimed finished : ℕ}

/-- A task is taken on when all members have entered the first barrier of its round. -/
private theorem claim (fits : member.Fits claimed claimed)
    (entered : 2 * claimed + 1 ≤ member.entered) : member.Fits (claimed + 1) claimed := by
  obtain ⟨round, stage⟩ := member
  cases stage <;> simp only [Fits, Member.entered] at fits entered ⊢ <;> omega

/-- A task is finished before members enter the next round. -/
private theorem finish (fits : member.Fits (finished + 1) finished)
    (entered : 2 * finished + 1 ≤ member.entered) (different : member.stage ≠ .elected) :
    member.Fits (finished + 1) (finished + 1) := by
  obtain ⟨round, stage⟩ := member
  cases stage with
  | elected => exact absurd rfl different
  | outside => simp only [Fits, Member.entered] at fits entered ⊢; omega
  | first => simp only [Fits, Member.entered] at fits entered ⊢; omega
  | single => simp only [Fits, Member.entered] at fits entered ⊢; omega
  | second => simp only [Fits, Member.entered] at fits entered ⊢; omega
  | behind => simp only [Fits, Member.entered] at fits entered ⊢; omega

end Member.Fits

/-- What holds at any time. A task is taken on and not done while a member does it. -/
structure Team.Sound (team : Team ι) : Prop where
  fits : ∀ i, (team.member i).Fits team.claimed team.finished
  single : ∀ i, (team.member i).stage = .single ∨ (team.member i).stage = .elected →
    ∀ other, 2 * (team.member i).round + 1 ≤ (team.member other).entered
  behind : ∀ i, (team.member i).stage = .behind →
    ∀ other, 2 * (team.member i).round + 2 ≤ (team.member other).entered
  working : team.finished < team.claimed → ∃ i, (team.member i).stage = .elected
  unique : ∀ i j, (team.member i).stage = .elected → (team.member j).stage = .elected → i = j

namespace Team.Sound

variable {team next : Team ι} {i j : ι}

theorem initial : (Team.initial : Team ι).Sound where
  fits := fun _ => ⟨rfl, rfl⟩
  single := fun _ stage => by simp [Team.initial] at stage
  behind := fun _ stage => by simp [Team.initial] at stage
  working := fun more => absurd more (Nat.lt_irrefl 0)
  unique := fun _ _ stage => by simp [Team.initial] at stage

/-- A step changes a member and the counts, and the member does not leave barriers. -/
private theorem update [DecidableEq ι] (sound : team.Sound) {member : Member}
    {claimed finished : ℕ} (grows : (team.member i).entered ≤ member.entered)
    (own : member.Fits claimed finished)
    (others : ∀ j ≠ i, (team.member j).Fits claimed finished)
    (single : member.stage = .single ∨ member.stage = .elected →
      ∀ other, 2 * member.round + 1 ≤ (team.member other).entered)
    (behind : member.stage = .behind →
      ∀ other, 2 * member.round + 2 ≤ (team.member other).entered)
    (working : finished < claimed →
      member.stage = .elected ∨ ∃ j ≠ i, (team.member j).stage = .elected)
    (unique : member.stage = .elected → ∀ j ≠ i, (team.member j).stage ≠ .elected) :
    (⟨Function.update team.member i member, claimed, finished⟩ : Team ι).Sound := by
  have entered (other : ι) : (team.member other).entered ≤
      (Function.update team.member i member other).entered := by
    by_cases same : other = i
    · subst same
      rwa [Function.update_self]
    · rw [Function.update_of_ne same]
  refine ⟨fun j => ?_, fun j stage other => ?_, fun j stage other => ?_, fun more => ?_,
    fun j k stage stage' => ?_⟩
  · change (Function.update team.member i member j).Fits claimed finished
    by_cases same : j = i
    · subst same
      rwa [Function.update_self]
    · rw [Function.update_of_ne same]
      exact others j same
  · change (Function.update team.member i member j).stage = _ ∨
      (Function.update team.member i member j).stage = _ at stage
    change 2 * (Function.update team.member i member j).round + 1 ≤ _
    refine le_trans ?_ (entered other)
    by_cases same : j = i
    · subst same
      rw [Function.update_self] at stage ⊢
      exact single stage other
    · rw [Function.update_of_ne same] at stage ⊢
      exact sound.single j stage other
  · change (Function.update team.member i member j).stage = _ at stage
    change 2 * (Function.update team.member i member j).round + 2 ≤ _
    refine le_trans ?_ (entered other)
    by_cases same : j = i
    · subst same
      rw [Function.update_self] at stage ⊢
      exact behind stage other
    · rw [Function.update_of_ne same] at stage ⊢
      exact sound.behind j stage other
  · change ∃ j, (Function.update team.member i member j).stage = .elected
    rcases working more with elected | ⟨j, different, elected⟩
    · exact ⟨i, by rwa [Function.update_self]⟩
    · exact ⟨j, by rwa [Function.update_of_ne different]⟩
  · change (Function.update team.member i member j).stage = _ at stage
    change (Function.update team.member i member k).stage = _ at stage'
    by_cases first : j = i
    · by_cases second : k = i
      · exact first.trans second.symm
      · subst first
        rw [Function.update_self] at stage
        rw [Function.update_of_ne second] at stage'
        exact absurd stage' (unique stage k second)
    · rw [Function.update_of_ne first] at stage
      by_cases second : k = i
      · subst second
        rw [Function.update_self] at stage'
        exact absurd stage (unique stage' j first)
      · rw [Function.update_of_ne second] at stage'
        exact sound.unique j k stage stage'

/-- An elected member that is not the one that takes a step. -/
private theorem elsewhere (sound : team.Sound) (different : (team.member i).stage ≠ .elected)
    (more : team.finished < team.claimed) : ∃ j ≠ i, (team.member j).stage = .elected := by
  obtain ⟨j, elected⟩ := sound.working more
  refine ⟨j, ?_, elected⟩
  rintro rfl
  exact different elected

/-- A step of a member that keeps the counts. -/
private theorem goTo [DecidableEq ι] (sound : team.Sound) {stage : Stage}
    (different : (team.member i).stage ≠ .elected) (notElected : stage ≠ .elected)
    (grows : (team.member i).entered ≤ (⟨(team.member i).round, stage⟩ : Member).entered)
    (own : (⟨(team.member i).round, stage⟩ : Member).Fits team.claimed team.finished)
    (single : stage = .single →
      ∀ other, 2 * (team.member i).round + 1 ≤ (team.member other).entered)
    (behind : stage = .behind →
      ∀ other, 2 * (team.member i).round + 2 ≤ (team.member other).entered) :
    (team.goTo i stage).Sound :=
  sound.update grows own (fun j _ => sound.fits j)
    (fun reached => single (reached.resolve_right notElected)) behind
    (fun more => .inr (sound.elsewhere different more)) fun elected => absurd elected notElected

/-- The first member of a round at its task takes it on. -/
private theorem takeOn [DecidableEq ι] (sound : team.Sound)
    (stage : (team.member i).stage = .single) (free : (team.member i).round = team.claimed) :
    ({ team with claimed := team.claimed + 1 }.goTo i .elected).Sound := by
  have fits := sound.fits i
  simp only [Member.Fits, stage] at fits
  have all := sound.single i (.inl stage)
  have idle : team.finished = team.claimed := by omega
  refine sound.update ?_ ?_ (fun j _ => ?_) (fun _ => all) nofun (fun _ => .inl rfl)
    fun _ j different elected => ?_
  · simp [Member.entered, stage]
  · simp only [Member.Fits]
    omega
  · have other := sound.fits j
    rw [idle] at other ⊢
    exact other.claim (free ▸ all j)
  · have other := sound.fits j
    simp only [Member.Fits, elected] at other
    omega

/-- The member that has taken on the task is done with it. -/
private theorem finishTask [DecidableEq ι] (sound : team.Sound)
    (stage : (team.member i).stage = .elected) :
    ({ team with finished := team.finished + 1 }.goTo i .second).Sound := by
  have fits := sound.fits i
  simp only [Member.Fits, stage] at fits
  have all := sound.single i (.inr stage)
  refine sound.update ?_ ?_ (fun j different => ?_) nofun nofun (fun more => ?_) nofun
  · simp [Member.entered, stage]
  · simp only [Member.Fits]
    omega
  · have other := sound.fits j
    rw [fits.2, ← fits.1] at other ⊢
    refine other.finish (fits.1 ▸ all j) fun elected => different ?_
    exact sound.unique j i elected stage
  · change team.finished + 1 < team.claimed at more
    omega

/-- A member that still did the task would not have entered the second barrier. -/
private theorem not_working (sound : team.Sound)
    (all : ∀ other, 2 * (team.member i).round + 2 ≤ (team.member other).entered)
    (claimed : team.claimed = (team.member i).round + 1) : ¬team.finished < team.claimed := by
  intro more
  obtain ⟨j, elected⟩ := sound.working more
  have other := sound.fits j
  have entered := all j
  simp only [Member.Fits, Member.entered, elected] at other entered
  omega

theorem advance [Fintype ι] [DecidableEq ι] (sound : team.Sound)
    (advanced : team.advance i = some next) : next.Sound := by
  have fits := sound.fits i
  cases stage : (team.member i).stage with
  | outside =>
      simp only [Team.advance, stage, Option.some.injEq] at advanced
      simp only [Member.Fits, stage] at fits
      rw [← advanced]
      refine sound.goTo (by simp [stage]) nofun ?_ ?_ nofun nofun
      · simp [Member.entered, stage]
      · simp only [Member.Fits]
        omega
  | first =>
      simp only [Team.advance, stage] at advanced
      obtain ⟨released, ⟨⟩⟩ := Option.ite_none_right_eq_some.mp advanced
      simp only [Member.Fits, stage] at fits
      refine sound.goTo (by simp [stage]) nofun ?_ fits (fun _ other => ?_) nofun
      · simp [Member.entered, stage]
      · have := released other
        simp only [Member.entered, stage] at this
        exact this
  | single =>
      simp only [Team.advance, stage] at advanced
      split at advanced
      · rename_i free
        obtain rfl := Option.some.inj advanced
        exact sound.takeOn stage free
      · rename_i taken
        obtain rfl := Option.some.inj advanced
        simp only [Member.Fits, stage] at fits
        refine sound.goTo (by simp [stage]) nofun ?_ ?_ nofun nofun
        · simp [Member.entered, stage]
        · simp only [Member.Fits]
          omega
  | elected =>
      simp only [Team.advance, stage, Option.some.injEq] at advanced
      rw [← advanced]
      exact sound.finishTask stage
  | second =>
      simp only [Team.advance, stage] at advanced
      obtain ⟨released, ⟨⟩⟩ := Option.ite_none_right_eq_some.mp advanced
      simp only [Member.Fits, stage] at fits
      have all (other : ι) : 2 * (team.member i).round + 2 ≤ (team.member other).entered := by
        have := released other
        simp only [Member.entered, stage] at this
        exact this
      refine sound.goTo (by simp [stage]) nofun ?_ ?_ nofun fun _ => all
      · simp [Member.entered, stage]
      · have done := sound.not_working all fits.2.2
        simp only [Member.Fits]
        omega
  | behind =>
      simp only [Member.Fits, stage] at fits
      simp only [Team.advance, stage, Option.some.injEq] at advanced
      rw [← advanced]
      refine sound.update ?_ fits (fun j _ => sound.fits j) nofun nofun
        (fun more => .inr (sound.elsewhere (by simp [stage]) more)) nofun
      simp only [Member.entered, stage]
      omega

/-! ## What holds around a task -/

/-- A step that does not finish a task or a round. The member that takes on a task is the only
one that does. -/
theorem advance_inside [Fintype ι] [DecidableEq ι] (sound : team.Sound)
    (advanced : team.advance i = some next) (notElected : (team.member i).stage ≠ .elected)
    (notBehind : (team.member i).stage ≠ .behind) :
    ∃ stage, next.member = Function.update team.member i ⟨(team.member i).round, stage⟩ ∧
      stage ≠ .outside ∧ next.finished = team.finished ∧
      (stage = .elected → ∀ j, (team.member j).stage ≠ .elected) := by
  cases stage : (team.member i).stage with
  | outside =>
      simp only [Team.advance, stage, Option.some.injEq] at advanced
      rw [← advanced]
      exact ⟨.first, rfl, nofun, rfl, nofun⟩
  | first =>
      simp only [Team.advance, stage] at advanced
      obtain ⟨-, ⟨⟩⟩ := Option.ite_none_right_eq_some.mp advanced
      exact ⟨.single, rfl, nofun, rfl, nofun⟩
  | single =>
      have fits := sound.fits i
      simp only [Member.Fits, stage] at fits
      simp only [Team.advance, stage] at advanced
      split at advanced
      · obtain rfl := Option.some.inj advanced
        refine ⟨.elected, rfl, nofun, rfl, fun _ j elected => ?_⟩
        have other := sound.fits j
        simp only [Member.Fits, elected] at other
        omega
      · obtain rfl := Option.some.inj advanced
        exact ⟨.second, rfl, nofun, rfl, nofun⟩
  | elected => exact absurd stage notElected
  | second =>
      simp only [Team.advance, stage] at advanced
      obtain ⟨-, ⟨⟩⟩ := Option.ite_none_right_eq_some.mp advanced
      exact ⟨.behind, rfl, nofun, rfl, nofun⟩
  | behind => exact absurd stage notBehind

/-- While a member does a task, nobody is outside of a round or behind a second barrier. -/
theorem not_elected (sound : team.Sound)
    (idle : (team.member i).stage = .outside ∨ (team.member i).stage = .behind) (j : ι) :
    (team.member j).stage ≠ .elected := by
  intro elected
  have fits := sound.fits i
  have fits' := sound.fits j
  simp only [Member.Fits, elected] at fits'
  rcases idle with outside | behind
  · simp only [Member.Fits, outside] at fits
    omega
  · simp only [Member.Fits, behind] at fits
    omega

theorem finished_of_outside (sound : team.Sound) (outside : (team.member i).stage = .outside) :
    team.finished = (team.member i).round := by
  have fits := sound.fits i
  simp only [Member.Fits, outside] at fits
  exact fits.1

theorem finished_of_elected (sound : team.Sound) (elected : (team.member i).stage = .elected) :
    team.finished = (team.member i).round := by
  have fits := sound.fits i
  simp only [Member.Fits, elected] at fits
  exact fits.1

theorem finished_of_behind (sound : team.Sound) (behind : (team.member i).stage = .behind) :
    team.finished = (team.member i).round + 1 := by
  have fits := sound.fits i
  simp only [Member.Fits, behind] at fits
  exact fits.1

/-- Barriers are all that holds up a member. -/
private theorem advance_of_released [Fintype ι] [DecidableEq ι] (released : team.Released i) :
    team.advance i ≠ none := by
  unfold Team.advance
  split
  · exact Option.some_ne_none _
  · rw [if_pos released]
    exact Option.some_ne_none _
  · split
    · exact Option.some_ne_none _
    · exact Option.some_ne_none _
  · exact Option.some_ne_none _
  · rw [if_pos released]
    exact Option.some_ne_none _
  · exact Option.some_ne_none _

/-- **Progress.** Members inside of a round that cannot go on wait for a member that is outside
of a round and has not come further. -/
theorem held_up [Fintype ι] [DecidableEq ι]
    (stuck : ∀ j, (team.member j).stage = .outside ∨ team.advance j = none)
    (inside : (team.member i).stage ≠ .outside) :
    ∃ j, (team.member j).stage = .outside ∧ (team.member j).round ≤ (team.member i).round := by
  have : Nonempty ι := ⟨i⟩
  obtain ⟨j, least⟩ := Finite.exists_min fun j => (team.member j).entered
  have outside : (team.member j).stage = .outside :=
    (stuck j).resolve_right (advance_of_released least)
  refine ⟨j, outside, ?_⟩
  have fewer : (team.member j).entered < (team.member i).entered := by
    by_contra more
    exact advance_of_released (fun other => (Nat.le_of_not_lt more).trans (least other))
      ((stuck i).resolve_left inside)
  have bound : (team.member i).entered ≤ 2 * (team.member i).round + 2 := by
    unfold Member.entered
    cases (team.member i).stage <;> simp
  have start : (team.member j).entered = 2 * (team.member j).round := by
    simp [Member.entered, outside]
  omega

end Team.Sound

end Math.SingleRounds
