import Ez4.State.ApplyReturns
import Ez4.Migration.EndsAtTarget
import Ez4.Queue.EntryPoint
import Ez4.Queue.OneContinuation
import Ez4.Queue.ClaimsKept
import Ez4.Local.GroupOrder
import Ez4.Local.Claims
import Ez4.Local.BatchAgreement
import Ez4.PgClient.AllOrNothing
import Ez4.PgClient.UpsertTurns
import Ez4.PgClient.CursorReading
import Ez4.Agent.WorkflowProgress
import Ez4.Agent.DispatchRun
import Ez4.Project.DeployExclusion
import Ez4.Schema.Unchanged
import Ez4.Utils.ComparedRenames
import Ez4.Utils.Workers
import Ez4.State.PlanPreviews
import Ez4.State.Dependents
import Ez4.PgSql.OperatorSets
import Ez4.Schema.UnionProperty
import Ez4.PgClient.PositionalParameters
import Ez4.PgClient.InsertedRows
import Ez4.PgClient.RelationMeaning
import Ez4.PgClient.UpdateAgreement
import Ez4.Gateway.RouteChoice
import Ez4.Scheduler.EventGuarantees
import Ez4.Dynamo.UpsertReports
import Ez4.Dynamo.InsertRuns
import Ez4.Scheduler.RateRuns
import Ez4.Project.MessageStream
import Ez4.Dynamo.WhereKept
import Ez4.Dynamo.IndexChoice
import Ez4.Project.LinkedVpcWalk
import Ez4.Project.EnvironmentRuns
import Ez4.Queue.SendReports
import Ez4.Local.Listeners
import Ez4.Queue.RetryWindow
import Ez4.Dynamo.StreamRuns
import Ez4.Migration.TemporaryNames
import Ez4.PgClient.ArrayRoundTrip
import Ez4.Distribution.RewriteRules
import Ez4.Agent.WorkspaceExclusion
import Ez4.Agent.WorkspaceLeases
import Ez4.Project.LinkedVariables
import Ez4.Scheduler.Clients
