import BehaviorEngine.Host.World
import BehaviorEngine.Proofs.Registry

/-!
Cells of the host: what is stored in a cell is read from it, and from no other one.
-/

namespace BehaviorEngine

namespace World

variable {σ : Type} (w : World σ) (d : Domain) (name : String) (x : d.Value)

@[simp] theorem read_write_self : (w.write d name x).read d name = x := by
  simp [read, write, Cells.read, Cells.write]

theorem read_write_of_name_ne {other : String} (h : other ≠ name) :
    (w.write d name x).read d other = w.read d other := by
  simp [read, write, Cells.read, Cells.write, Registry.get?_put_of_ne h]

theorem read_write_of_domain_ne {e : Domain} (h : e ≠ d) (other : String) :
    (w.write d name x).read e other = w.read e other := by
  simp [read, write, Cells.read, Cells.write, PerDomain.get_modify_of_ne _ _ h]

theorem read_write_of_ne {e : Domain} {other : String} (h : (e, other) ≠ (d, name)) :
    (w.write d name x).read e other = w.read e other := by
  by_cases hd : e = d
  · subst hd
    exact read_write_of_name_ne w e name x fun hname => h (hname ▸ rfl)
  · exact read_write_of_domain_ne w d name x hd other

end World

end BehaviorEngine
