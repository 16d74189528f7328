import DurativePlanning.Main
import DurativePlanning.Proofs.Atom.Table
import DurativePlanning.Proofs.ClosedWorld.Faithful
import DurativePlanning.Proofs.Mdp.Combination
import DurativePlanning.Proofs.Mdp.Deadline
import DurativePlanning.Proofs.Mdp.Exclusion
import DurativePlanning.Proofs.Mdp.Independence
import DurativePlanning.Proofs.Mdp.Naming
import DurativePlanning.Proofs.Mdp.Program
import DurativePlanning.Proofs.Mdp.Sampling
import DurativePlanning.Proofs.Mdp.Schedule
import DurativePlanning.Proofs.Planner.Asked
import DurativePlanning.Proofs.Planner.Batch
import DurativePlanning.Proofs.Planner.Episode
import DurativePlanning.Proofs.Planner.Merging
import DurativePlanning.Proofs.Planner.Returns
import DurativePlanning.Proofs.Planner.Samples
import DurativePlanning.Proofs.Problem.Declarations
import DurativePlanning.Proofs.Problem.Enumeration
import DurativePlanning.Proofs.Problem.Relaw
import DurativePlanning.Proofs.Problem.Replacement
import DurativePlanning.Proofs.Problem.TemplateCheck
import DurativePlanning.Proofs.Random.Draw
import DurativePlanning.Proofs.Reference.Fleet
import DurativePlanning.Proofs.Run.Cache
import DurativePlanning.Proofs.Run.Limits
import DurativePlanning.Proofs.Run.Overrides
import DurativePlanning.Proofs.Search.Bandit
import DurativePlanning.Proofs.Search.Budget
import DurativePlanning.Proofs.Search.InTurn
import DurativePlanning.Proofs.Search.RewardToGo
import DurativePlanning.Proofs.Search.Trajectory
import DurativePlanning.Search.Scripted
