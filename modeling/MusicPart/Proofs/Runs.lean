import Mathlib.Data.List.SplitBy

/-!
# Runs

A list falls into its maximal runs of equal keys. What remembers the last key and passes over every
element that has it again keeps the first element of each run.
-/

namespace MusicPart

variable {β γ : Type} [BEq γ] (key : β → γ)

/-- The maximal runs of equal keys. -/
def runsBy (xs : List β) : List (List β) := xs.splitBy fun a b => key a == key b

/-- The elements whose key is another one than the last key so far. -/
def leaders : Option γ → List β → List β
  | _, [] => []
  | last, x :: xs =>
      if last == some (key x) then leaders last xs else x :: leaders (some (key x)) xs

@[simp]
theorem flatten_runsBy (xs : List β) : (runsBy key xs).flatten = xs := List.flatten_splitBy _ xs

theorem nil_notMem_runsBy (xs : List β) : [] ∉ runsBy key xs := List.nil_notMem_splitBy _ xs

section Lawful

variable [LawfulBEq γ]

/-- One key is that of all the elements of a run. -/
theorem pairwise_of_mem_runsBy {xs run : List β} (h : run ∈ runsBy key xs) :
    run.Pairwise fun a b => key a = key b := by
  have hchain : run.IsChain fun a b => key a = key b :=
    (List.isChain_of_mem_splitBy h).imp fun _ _ => eq_of_beq
  have : Trans (fun a b => key a = key b) (fun a b => key a = key b) fun a b => key a = key b :=
    ⟨Eq.trans⟩
  exact hchain.pairwise

/-- A run begins with another key than the run before it ends with. -/
theorem isChain_runsBy (xs : List β) : (runsBy key xs).IsChain fun run next =>
    ∃ hrun hnext, key (run.getLast hrun) ≠ key (next.head hnext) :=
  (List.isChain_getLast_head_splitBy _ xs).imp
    fun _ _ ⟨hrun, hnext, h⟩ => ⟨hrun, hnext, ne_of_beq_false h⟩

end Lawful

/-! ### Leaders -/

variable {key}

theorem leaders_sublist (last : Option γ) (xs : List β) : (leaders key last xs).Sublist xs := by
  induction xs generalizing last with
  | nil => exact .slnil
  | cons x xs ih =>
      rw [leaders]
      split
      · exact (ih last).cons x
      · exact (ih _).cons_cons x

variable [LawfulBEq γ]

/-- Neighbours among the leaders differ, and the first one differs from the last key before. -/
theorem isChain_leaders (last : Option γ) (xs : List β) :
    (leaders key last xs).IsChain (fun a b => key a ≠ key b) ∧
      ∀ x ∈ (leaders key last xs).head?, last ≠ some (key x) := by
  induction xs generalizing last with
  | nil => exact ⟨.nil, nofun⟩
  | cons x xs ih =>
      rw [leaders]
      split
      · exact ih last
      · rename_i hlast
        obtain ⟨hchain, hhead⟩ := ih (some (key x))
        refine ⟨List.isChain_cons.mpr ⟨fun y hy => ?_, hchain⟩, ?_⟩
        · exact fun heq => hhead y hy (congrArg some heq)
        · intro y hy heq
          obtain rfl : x = y := Option.some_inj.mp hy
          exact hlast (beq_of_eq heq)

/-- Where neighbours differ every element is a leader. -/
theorem leaders_of_isChain {last : Option γ} {xs : List β}
    (h : xs.IsChain fun a b => key a ≠ key b) (hlast : ∀ x ∈ xs.head?, last ≠ some (key x)) :
    leaders key last xs = xs := by
  induction xs generalizing last with
  | nil => rfl
  | cons x xs ih =>
      obtain ⟨hhead, htail⟩ := List.isChain_cons.mp h
      have hx : ¬(last == some (key x)) = true := by
        simpa using hlast x rfl
      rw [leaders, if_neg hx, ih htail fun y hy heq => hhead y hy (Option.some_inj.mp heq)]

theorem leaders_append {c : γ} {xs : List β} (h : ∀ x ∈ xs, key x = c) (ys : List β) :
    leaders key (some c) (xs ++ ys) = leaders key (some c) ys := by
  induction xs with
  | nil => rfl
  | cons x xs ih =>
      obtain ⟨hx, hxs⟩ := List.forall_mem_cons.mp h
      rw [List.cons_append, leaders, if_pos (beq_of_eq (congrArg some hx.symm)), ih hxs]

theorem leaders_flatten {xss : List (List β)} (hnil : [] ∉ xss)
    (hsame : ∀ xs ∈ xss, xs.Pairwise fun a b => key a = key b)
    (hdiffer : xss.IsChain fun xs ys => ∃ hx hy, key (xs.getLast hx) ≠ key (ys.head hy))
    {last : Option γ} (hlast : ∀ xs ∈ xss.head?, ∀ x ∈ xs.head?, last ≠ some (key x)) :
    (leaders key last xss.flatten).map some = xss.map List.head? := by
  induction xss generalizing last with
  | nil => rfl
  | cons xs xss ih =>
      cases xs with
      | nil => exact absurd List.mem_cons_self hnil
      | cons x xs =>
          obtain ⟨hxs, hxss⟩ := List.forall_mem_cons.mp hsame
          obtain ⟨hhead, htail⟩ := List.isChain_cons.mp hdiffer
          have hkey : ∀ y ∈ xs, key y = key x :=
            fun y hy => ((List.pairwise_cons.mp hxs).1 y hy).symm
          have hnext : ∀ ys ∈ xss.head?, ∀ y ∈ ys.head?, some (key x) ≠ some (key y) := by
            intro ys hys y hy heq
            obtain ⟨hx, hne, hdiffers⟩ := hhead ys hys
            have hlastKey : key ((x :: xs).getLast hx) = key x := by
              rcases List.mem_cons.mp (List.getLast_mem hx) with h | h
              · exact congrArg key h
              · exact hkey _ h
            rw [List.head?_eq_some_head hne] at hy
            rw [hlastKey, Option.some_inj.mp hy] at hdiffers
            exact hdiffers (Option.some_inj.mp heq)
          have hfirst : ¬(last == some (key x)) = true := by
            simpa using hlast (x :: xs) rfl x rfl
          rw [List.flatten_cons, List.cons_append, leaders, if_neg hfirst, leaders_append hkey,
            List.map_cons, List.map_cons, List.head?_cons,
            ih (fun h => hnil (List.mem_cons_of_mem _ h)) hxss htail hnext]

/-- The leaders are the first elements of the maximal runs. -/
theorem map_some_leaders (key : β → γ) (xs : List β) :
    (leaders key none xs).map some = (runsBy key xs).map List.head? := by
  have hlast : ∀ run ∈ (runsBy key xs).head?, ∀ x ∈ run.head?, none ≠ some (key x) :=
    fun _ _ _ _ => nofun
  have h := leaders_flatten (nil_notMem_runsBy key xs) (fun _ => pairwise_of_mem_runsBy key)
    (isChain_runsBy key xs) hlast
  rwa [flatten_runsBy] at h

theorem length_leaders (key : β → γ) (xs : List β) :
    (leaders key none xs).length = (runsBy key xs).length := by
  have h := congrArg List.length (map_some_leaders key xs)
  rwa [List.length_map, List.length_map] at h

theorem filterMap_head?_runsBy (key : β → γ) (xs : List β) :
    (runsBy key xs).filterMap List.head? = leaders key none xs := by
  have h := congrArg (List.filterMap id) (map_some_leaders key xs)
  rw [List.filterMap_map, List.filterMap_map, Function.id_comp, Function.id_comp,
    List.filterMap_some] at h
  exact h.symm

theorem getElem?_leaders (key : β → γ) (xs : List β) (k : Nat) :
    (leaders key none xs)[k]? = (runsBy key xs)[k]?.bind List.head? := by
  have h : ((leaders key none xs).map some)[k]?.bind id =
      ((runsBy key xs).map List.head?)[k]?.bind id := by rw [map_some_leaders]
  rw [List.getElem?_map, List.getElem?_map, Option.bind_map, Option.bind_map, Function.id_comp,
    Function.id_comp] at h
  rwa [Option.bind_fun_some] at h

end MusicPart
